import Schemata.Proofs.Lexing

/-!
# What is read

A text is read exactly if the grammar derives it, and what is read is the tree that the
grammar assigns to it. The reader keeps a stack of open containers where a derivation is
nested, so each direction follows one value at a time: the tokens of a value hand that value
to the container around it, and nothing else hands it one.
-/

namespace Schemata.Json

open Grammar Source

/-- The tokens lead from a state to the end of a text with the given tree. -/
def Reads (state : State) (tokens : List Token) (root : Node) : Prop :=
  tokens.foldlM State.step state = .ok (.done root)

theorem reads_nil {state : State} {root : Node} : Reads state [] root ↔ state = .done root := by
  simp [Reads, pure, Except.pure]

theorem reads_cons {state : State} {token : Token} {tokens : List Token} {root : Node} :
    Reads state (token :: tokens) root ↔
      ∃ next, state.step token = .ok next ∧ Reads next tokens root := by
  rw [Reads, List.foldlM_cons]
  exact bind_eq_ok

/-! ### From the reader to the grammar -/

theorem IsToken.inQuotes {text : List Char} (h : IsToken .string text) :
    ∃ body, text = Grammar.inQuotes body ∧ Closed body := by
  cases h with
  | @string body hbody => exact ⟨body, rfl, hbody⟩

theorem IsToken.eq_mark {c : Char} {text : List Char} (h : IsToken (.mark c) text) :
    text = [c] := by
  cases h
  rfl

theorem IsToken.isScalar {value : Scalar} {text : List Char} (h : IsToken (.word value) text) :
    IsScalar Text.digitLimit text value := by
  cases h with
  | word hword =>
      simp only [words, List.mem_cons, Prod.mk.injEq, List.not_mem_nil, or_false] at hword
      rcases hword with ⟨rfl, rfl⟩ | ⟨rfl, rfl⟩ | ⟨rfl, rfl⟩
      · exact .true
      · exact .false
      · exact .null

theorem drop_dropLast_inQuotes (body : List Char) :
    ((inQuotes body).drop 1).dropLast = body := by
  simp [inQuotes]

theorem stringOf_eq_ok {token : Token} {text : Str} (htoken : IsToken .string token.text)
    (h : State.stringOf token = .ok text) :
    ∃ body, token.text = inQuotes body ∧ Characters body text := by
  obtain ⟨body, htext, hbody⟩ := htoken.inQuotes
  rw [State.stringOf, htext, drop_dropLast_inQuotes] at h
  exact ⟨body, htext, hbody.unescape_eq_ok_iff.mp (mapError_eq_ok.mp h)⟩

/-- A token that starts a value is a scalar or opens a container. -/
theorem startValue_eq_ok {token : Token} {outer : List Pending} {next : State}
    (htoken : IsToken token.kind token.text) (h : State.startValue token outer = .ok next) :
    (∃ value, IsScalar Text.digitLimit token.text value ∧
      next = .deliver (.scalar token.range value (String.ofList token.text)) outer) ∨
    (token.text = ['['] ∧ next = .firstItem token.range.first outer) ∨
    (token.text = ['\x7b'] ∧ next = .firstKey token.range.first outer) := by
  unfold State.startValue at h
  dsimp only at h
  split at h
  next hkind =>
    rw [hkind] at htoken
    obtain ⟨text, hstring, rfl⟩ := map_eq_ok.mp h
    obtain ⟨body, htext, hbody⟩ := stringOf_eq_ok htoken hstring
    refine .inl ⟨_, ?_, rfl⟩
    rw [htext]
    exact .string hbody
  next hkind =>
    split at h
    next number hnumber =>
      obtain rfl := Except.ok.inj h
      exact .inl ⟨_, .number (readNumber_eq_ok_iff.mp hnumber), rfl⟩
    next => cases h
  next value hkind =>
    rw [hkind] at htoken
    obtain rfl := Except.ok.inj h
    exact .inl ⟨value, htoken.isScalar, rfl⟩
  next c hkind =>
    rw [hkind] at htoken
    split at h
    next hopen =>
      obtain rfl := Except.ok.inj h
      exact .inr (.inr ⟨hopen ▸ htoken.eq_mark, rfl⟩)
    next =>
      split at h
      next hopen =>
        obtain rfl := Except.ok.inj h
        exact .inr (.inl ⟨hopen ▸ htoken.eq_mark, rfl⟩)
      next => cases h

theorem startMember_eq_ok {first : Position} {members : List (Member Node)}
    {outer : List Pending} {token : Token} {next : State}
    (htoken : IsToken token.kind token.text)
    (h : State.startMember first members outer token = .ok next) :
    ∃ body characters, token.text = inQuotes body ∧ Characters body characters ∧
      next = .nextColon first members
        ⟨characters, String.ofList (inQuotes body), token.range⟩ outer := by
  unfold State.startMember at h
  split at h
  next hkind =>
    rw [hkind] at htoken
    obtain ⟨text, hstring, rfl⟩ := map_eq_ok.mp h
    obtain ⟨body, htext, hbody⟩ := stringOf_eq_ok htoken hstring
    rw [htext]
    exact ⟨body, text, rfl, hbody, rfl⟩
  next => cases h

/-- The text at a position starts with what is written for a phrase, which takes the reader
to the next state. Some tokens are used up. -/
def Starts (position : Position) (text : List Char) (tokens : List Token) (phrase : Phrase)
    (next : Position → State) (root : Node) : Prop :=
  ∃ body rest left, text = body ++ rest ∧ Written Text.digitLimit position body phrase ∧
    Lexed (position.past body) rest left ∧ left.length < tokens.length ∧
    Reads (next (position.past body)) left root

theorem Lexed.of_cons {position : Position} {text : List Char} {token : Token}
    {tokens : List Token} (h : Lexed position text (token :: tokens)) :
    ∃ blank rest, text = blank ++ token.text ++ rest ∧ Blank blank ∧
      IsToken token.kind token.text ∧
      token.range = ⟨position.past blank, (position.past blank).past token.text⟩ ∧
      Lexed (position.past (blank ++ token.text)) rest tokens := by
  cases h with
  | @token _ blank rest _ _ hblank htoken hrange hrest =>
      refine ⟨blank, rest, rfl, hblank, htoken, hrange, ?_⟩
      rw [Position.past_append]
      rwa [hrange] at hrest

section Steps

variable {first : Position} {outer : List Pending} {token : Token} {tokens : List Token}
  {root : Node}

/-- An array that has just been opened is closed, or it waits for its first item. -/
theorem Reads.of_firstItem (h : Reads (.firstItem first outer) (token :: tokens) root) :
    (token.kind = .mark ']' ∧
      Reads (.deliver (.array ⟨first, token.range.last⟩ []) outer) tokens root) ∨
    Reads (.nextValue (.item first [] :: outer)) (token :: tokens) root := by
  obtain ⟨next, hstep, hreads⟩ := reads_cons.mp h
  by_cases hclose : token.kind = .mark ']'
  · rw [State.step, if_pos hclose] at hstep
    obtain rfl := Except.ok.inj hstep
    exact .inl ⟨hclose, hreads⟩
  · rw [State.step, if_neg hclose] at hstep
    exact .inr (reads_cons.mpr ⟨next, hstep, hreads⟩)

theorem Reads.of_firstKey (h : Reads (.firstKey first outer) (token :: tokens) root) :
    (token.kind = .mark '\x7d' ∧
      Reads (.deliver (.object ⟨first, token.range.last⟩ []) outer) tokens root) ∨
    Reads (.nextKey first [] outer) (token :: tokens) root := by
  obtain ⟨next, hstep, hreads⟩ := reads_cons.mp h
  by_cases hclose : token.kind = .mark '\x7d'
  · rw [State.step, if_pos hclose] at hstep
    obtain rfl := Except.ok.inj hstep
    exact .inl ⟨hclose, hreads⟩
  · rw [State.step, if_neg hclose] at hstep
    exact .inr (reads_cons.mpr ⟨next, hstep, hreads⟩)

/-- After an item its array is closed or waits for the next one. -/
theorem Reads.of_afterItem {items : List Node}
    (h : Reads (.afterItem first items outer) (token :: tokens) root) :
    (token.kind = .mark ']' ∧
      Reads (.deliver (.array ⟨first, token.range.last⟩ items.reverse) outer) tokens root) ∨
    (token.kind = .mark ',' ∧ Reads (.nextValue (.item first items :: outer)) tokens root) := by
  obtain ⟨next, hstep, hreads⟩ := reads_cons.mp h
  simp only [State.step] at hstep
  split at hstep
  next hclose =>
    obtain rfl := Except.ok.inj hstep
    exact .inl ⟨hclose, hreads⟩
  next =>
    split at hstep
    next hcomma =>
      obtain rfl := Except.ok.inj hstep
      exact .inr ⟨hcomma, hreads⟩
    next => cases hstep

theorem Reads.of_afterMember {members : List (Member Node)}
    (h : Reads (.afterMember first members outer) (token :: tokens) root) :
    (token.kind = .mark '\x7d' ∧
      Reads (.deliver (.object ⟨first, token.range.last⟩ members.reverse) outer) tokens root) ∨
    (token.kind = .mark ',' ∧ Reads (.nextKey first members outer) tokens root) := by
  obtain ⟨next, hstep, hreads⟩ := reads_cons.mp h
  simp only [State.step] at hstep
  split at hstep
  next hclose =>
    obtain rfl := Except.ok.inj hstep
    exact .inl ⟨hclose, hreads⟩
  next =>
    split at hstep
    next hcomma =>
      obtain rfl := Except.ok.inj hstep
      exact .inr ⟨hcomma, hreads⟩
    next => cases hstep

theorem Reads.of_nextColon {members : List (Member Node)} {key : Key}
    (h : Reads (.nextColon first members key outer) (token :: tokens) root) :
    token.kind = .mark ':' ∧
      Reads (.nextValue (.member first members key :: outer)) tokens root := by
  obtain ⟨next, hstep, hreads⟩ := reads_cons.mp h
  simp only [State.step] at hstep
  split at hstep
  next hcolon =>
    obtain rfl := Except.ok.inj hstep
    exact ⟨hcolon, hreads⟩
  next => cases hstep

end Steps

/-- What is read as a value from fewer tokens than the bound is written for that value. -/
def ValuesStart (bound : Nat) : Prop :=
  ∀ {position text tokens outer root}, tokens.length < bound → Lexed position text tokens →
    Reads (.nextValue outer) tokens root →
    ∃ blank after node, text = blank ++ after ∧ Blank blank ∧
      Starts (position.past blank) after tokens (.value node) (fun _ => .deliver node outer) root

section Phrases

variable {bound : Nat} {position first : Position} {text : List Char} {token : Token}
  {tokens : List Token} {outer : List Pending} {root : Node}

theorem ValuesStart.items (h : ValuesStart bound) (items : List Node)
    (hbound : tokens.length ≤ bound) (hlexed : Lexed position text tokens)
    (hreads : Reads (.afterItem first items outer) tokens root) :
    ∃ others, Starts position text tokens (.items others)
      (fun last => .deliver (.array ⟨first, last⟩ (items.reverse ++ others)) outer) root := by
  induction hlength : tokens.length using Nat.strong_induction_on
    generalizing position text tokens items with
  | h count ih =>
    cases tokens with
    | nil => cases reads_nil.mp hreads
    | cons token tokens =>
        obtain ⟨blank, rest, rfl, hblank, htoken, hrange, hrest⟩ := hlexed.of_cons
        rcases hreads.of_afterItem with ⟨hclose, hreads⟩ | ⟨hcomma, hreads⟩
        · rw [hclose] at htoken
          rw [hrange, htoken.eq_mark, ← Position.past_append] at hreads
          rw [htoken.eq_mark] at hrest ⊢
          rw [← List.append_nil items.reverse] at hreads
          exact ⟨[], blank ++ [']'], rest, tokens, rfl, .lastItem hblank, hrest,
            Nat.lt_succ_self _, hreads⟩
        · rw [hcomma] at htoken
          rw [htoken.eq_mark] at hrest ⊢
          subst hlength
          obtain ⟨after, _, next, rfl, hafter, body, _, left, rfl, hnext, hrest, hless, hreads⟩ :=
            h (Nat.lt_of_succ_le hbound) hrest hreads
          have hless : left.length < (token :: tokens).length := Nat.lt_succ_of_lt hless
          obtain ⟨others, body', rest, left', rfl, hothers, hrest, hless', hreads⟩ :=
            ih left.length hless (next :: items) (hless.le.trans hbound) hrest hreads rfl
          refine ⟨next :: others, blank ++ ',' :: after ++ body ++ body', rest, left', ?_, ?_, ?_,
            hless'.trans hless, ?_⟩
          · simp
          · refine .nextItem hblank hafter ?_ ?_
            · simpa [Position.past_append] using hnext
            · simpa [Position.past_append] using hothers
          · simpa [Position.past_append] using hrest
          · simpa [Position.past_append] using hreads

theorem ValuesStart.array (h : ValuesStart bound) (hbound : tokens.length < bound)
    (hlexed : Lexed (position.past ['[']) text tokens)
    (hreads : Reads (.firstItem position outer) tokens root) :
    ∃ node, Starts position ('[' :: text) (token :: tokens) (.value node)
      (fun _ => .deliver node outer) root := by
  cases tokens with
  | nil => cases reads_nil.mp hreads
  | cons next tokens =>
      rcases hreads.of_firstItem with ⟨hclose, hreads⟩ | hreads
      · obtain ⟨blank, rest, rfl, hblank, htoken, hrange, hrest⟩ := hlexed.of_cons
        rw [hclose] at htoken
        rw [htoken.eq_mark] at hrange hrest ⊢
        have hlast : next.range.last = position.past ('[' :: blank ++ [']']) := by
          simp [hrange, Position.past_append]
        rw [hlast] at hreads
        refine ⟨_, '[' :: blank ++ [']'], rest, tokens, ?_, .emptyArray hblank, ?_, ?_, hreads⟩
        · simp
        · simpa using hrest
        · simp only [List.length_cons]
          omega
      · obtain ⟨blank, _, item, rfl, hblank, body, _, left, rfl, hitem, hrest, hless, hreads⟩ :=
          h hbound hlexed hreads
        obtain ⟨others, body', rest, left', rfl, hothers, hrest, hless', hreads⟩ :=
          h.items [item] (hless.trans hbound).le hrest hreads
        refine ⟨.array ⟨position, position.past ('[' :: blank ++ body ++ body')⟩ (item :: others),
          '[' :: blank ++ body ++ body', rest, left', ?_, ?_, ?_, ?_, ?_⟩
        · simp
        · refine .array hblank ?_ ?_
          · simpa [Position.past_append] using hitem
          · simpa [Position.past_append] using hothers
        · simpa [Position.past_append] using hrest
        · exact (hless'.trans hless).trans (Nat.lt_succ_self _)
        · simpa [Position.past_append] using hreads

/-- A member is read as its key, a colon and its value. -/
theorem ValuesStart.member (h : ValuesStart bound) {members : List (Member Node)}
    (hbound : tokens.length ≤ bound) (hlexed : Lexed position text tokens)
    (hreads : Reads (.nextKey first members outer) tokens root) :
    ∃ blank after member, text = blank ++ after ∧ Blank blank ∧
      Starts (position.past blank) after tokens (.member member)
        (fun _ => .afterMember first (member :: members) outer) root := by
  cases tokens with
  | nil => cases reads_nil.mp hreads
  | cons token tokens =>
    obtain ⟨blank, rest, rfl, hblank, htoken, hrange, hrest⟩ := hlexed.of_cons
    obtain ⟨next, hstep, hreads⟩ := reads_cons.mp hreads
    obtain ⟨body, characters, htext, hbody, rfl⟩ := startMember_eq_ok htoken hstep
    rw [htext] at hrange hrest ⊢
    cases tokens with
    | nil => cases reads_nil.mp hreads
    | cons colon tokens =>
        obtain ⟨before, rest, rfl, hbefore, htoken, -, hrest⟩ := hrest.of_cons
        obtain ⟨hcolon, hreads⟩ := hreads.of_nextColon
        rw [hcolon] at htoken
        rw [htoken.eq_mark] at hrest ⊢
        have hbound : tokens.length < bound := by
          simp only [List.length_cons] at hbound
          omega
        obtain ⟨after, _, value, rfl, hafter, text, rest, left, rfl, hvalue, hrest, hless,
          hreads⟩ :=
          h hbound hrest hreads
        rw [hrange] at hreads
        refine ⟨blank, _, ⟨keyAt (position.past blank) body characters, value⟩,
          List.append_assoc .., hblank,
          inQuotes body ++ before ++ ':' :: after ++ text, rest, left, ?_, ?_, ?_, ?_, hreads⟩
        · simp
        · refine .member hbody hbefore hafter ?_
          simpa [Position.past_append] using hvalue
        · simpa [Position.past_append] using hrest
        · simp only [List.length_cons]
          omega

theorem ValuesStart.members (h : ValuesStart bound) (members : List (Member Node))
    (hbound : tokens.length ≤ bound) (hlexed : Lexed position text tokens)
    (hreads : Reads (.afterMember first members outer) tokens root) :
    ∃ others, Starts position text tokens (.members others)
      (fun last => .deliver (.object ⟨first, last⟩ (members.reverse ++ others)) outer) root := by
  induction hlength : tokens.length using Nat.strong_induction_on
    generalizing position text tokens members with
  | h count ih =>
    cases tokens with
    | nil => cases reads_nil.mp hreads
    | cons token tokens =>
        obtain ⟨blank, rest, rfl, hblank, htoken, hrange, hrest⟩ := hlexed.of_cons
        rcases hreads.of_afterMember with ⟨hclose, hreads⟩ | ⟨hcomma, hreads⟩
        · rw [hclose] at htoken
          rw [hrange, htoken.eq_mark, ← Position.past_append] at hreads
          rw [htoken.eq_mark] at hrest ⊢
          rw [← List.append_nil members.reverse] at hreads
          exact ⟨[], blank ++ ['\x7d'], rest, tokens, rfl, .lastMember hblank, hrest,
            Nat.lt_succ_self _, hreads⟩
        · rw [hcomma] at htoken
          rw [htoken.eq_mark] at hrest ⊢
          subst hlength
          obtain ⟨after, _, next, rfl, hafter, body, _, left, rfl, hnext, hrest, hless, hreads⟩ :=
            h.member (Nat.le_of_succ_le hbound) hrest hreads
          have hless : left.length < (token :: tokens).length := Nat.lt_succ_of_lt hless
          obtain ⟨others, body', rest, left', rfl, hothers, hrest, hless', hreads⟩ :=
            ih left.length hless (next :: members) (hless.le.trans hbound) hrest hreads rfl
          refine ⟨next :: others, blank ++ ',' :: after ++ body ++ body', rest, left', ?_, ?_, ?_,
            hless'.trans hless, ?_⟩
          · simp
          · refine .nextMember hblank hafter ?_ ?_
            · simpa [Position.past_append] using hnext
            · simpa [Position.past_append] using hothers
          · simpa [Position.past_append] using hrest
          · simpa [Position.past_append] using hreads

theorem ValuesStart.object (h : ValuesStart bound) (hbound : tokens.length < bound)
    (hlexed : Lexed (position.past ['\x7b']) text tokens)
    (hreads : Reads (.firstKey position outer) tokens root) :
    ∃ node, Starts position ('\x7b' :: text) (token :: tokens) (.value node)
      (fun _ => .deliver node outer) root := by
  cases tokens with
  | nil => cases reads_nil.mp hreads
  | cons next tokens =>
      rcases hreads.of_firstKey with ⟨hclose, hreads⟩ | hreads
      · obtain ⟨blank, rest, rfl, hblank, htoken, hrange, hrest⟩ := hlexed.of_cons
        rw [hclose] at htoken
        rw [htoken.eq_mark] at hrange hrest ⊢
        have hlast : next.range.last = position.past ('\x7b' :: blank ++ ['\x7d']) := by
          simp [hrange, Position.past_append]
        rw [hlast] at hreads
        refine ⟨_, '\x7b' :: blank ++ ['\x7d'], rest, tokens, ?_, .emptyObject hblank, ?_, ?_,
          hreads⟩
        · simp
        · simpa using hrest
        · simp only [List.length_cons]
          omega
      · obtain ⟨blank, _, member, rfl, hblank, body, _, left, rfl, hmember, hrest, hless, hreads⟩ :=
          h.member hbound.le hlexed hreads
        obtain ⟨others, body', rest, left', rfl, hothers, hrest, hless', hreads⟩ :=
          h.members [member] (hless.trans hbound).le hrest hreads
        refine ⟨.object ⟨position, position.past ('\x7b' :: blank ++ body ++ body')⟩
          (member :: others), '\x7b' :: blank ++ body ++ body', rest, left', ?_, ?_, ?_, ?_, ?_⟩
        · simp
        · refine .object hblank ?_ ?_
          · simpa [Position.past_append] using hmember
          · simpa [Position.past_append] using hothers
        · simpa [Position.past_append] using hrest
        · exact (hless'.trans hless).trans (Nat.lt_succ_self _)
        · simpa [Position.past_append] using hreads

end Phrases

theorem valuesStart (bound : Nat) : ValuesStart bound := by
  induction bound with
  | zero => exact fun hbound => absurd hbound (Nat.not_lt_zero _)
  | succ bound ih =>
      intro position text tokens outer root hbound hlexed hreads
      cases tokens with
      | nil => cases reads_nil.mp hreads
      | cons token tokens =>
          obtain ⟨blank, rest, rfl, hblank, htoken, hrange, hrest⟩ := hlexed.of_cons
          obtain ⟨next, hstep, hreads⟩ := reads_cons.mp hreads
          have hbound : tokens.length < bound := Nat.lt_of_succ_lt_succ hbound
          refine ⟨blank, token.text ++ rest, ?_⟩
          rw [Position.past_append] at hrest
          rcases startValue_eq_ok htoken hstep with
            ⟨value, hscalar, rfl⟩ | ⟨htext, rfl⟩ | ⟨htext, rfl⟩
          all_goals rw [hrange] at hreads
          · exact ⟨_, List.append_assoc .., hblank, token.text, rest, tokens, rfl,
              .scalar hscalar, hrest, Nat.lt_succ_self _, hreads⟩
          · rw [htext] at hrest ⊢
            obtain ⟨node, hnode⟩ := ih.array hbound hrest hreads
            exact ⟨node, List.append_assoc .., hblank, hnode⟩
          · rw [htext] at hrest ⊢
            obtain ⟨node, hnode⟩ := ih.object hbound hrest hreads
            exact ⟨node, List.append_assoc .., hblank, hnode⟩

/-- A text whose tokens are read to the end is one of the grammar. -/
theorem isText_of_reads {text : List Char} {tokens : List Token} {root : Node}
    (hlexed : Lexed .start text tokens) (hreads : Reads (.nextValue []) tokens root) :
    IsText Text.digitLimit text root := by
  obtain ⟨before, _, node, rfl, hbefore, body, after, left, rfl, hbody, hlexed, -, hreads⟩ :=
    valuesStart (tokens.length + 1) (Nat.lt_succ_self _) hlexed hreads
  cases left with
  | nil =>
      cases reads_nil.mp hreads
      cases hlexed with
      | blank hafter =>
          exact ⟨before, body, after, (List.append_assoc ..).symm, hbefore, hafter, hbody⟩
  | cons token left =>
      obtain ⟨next, hstep, -⟩ := reads_cons.mp hreads
      cases hstep

/-! ### From the grammar to the reader -/

section Steps

variable {first : Position} {outer : List Pending} {tokens : List Token} {root : Node}

/-- A value never starts with a closing bracket. -/
theorem Reads.firstItem (h : Reads (.nextValue (.item first [] :: outer)) tokens root) :
    Reads (.firstItem first outer) tokens root := by
  cases tokens with
  | nil => cases reads_nil.mp h
  | cons token tokens =>
      obtain ⟨next, hstep, hreads⟩ := reads_cons.mp h
      have hopen : token.kind ≠ .mark ']' := by
        intro hclose
        simp [State.step, State.startValue, State.refuse, hclose] at hstep
      refine reads_cons.mpr ⟨next, ?_, hreads⟩
      rwa [State.step, if_neg hopen]

theorem Reads.firstKey (h : Reads (.nextKey first [] outer) tokens root) :
    Reads (.firstKey first outer) tokens root := by
  cases tokens with
  | nil => cases reads_nil.mp h
  | cons token tokens =>
      obtain ⟨next, hstep, hreads⟩ := reads_cons.mp h
      have hopen : token.kind ≠ .mark '\x7d' := by
        intro hclose
        simp [State.step, State.startMember, State.refuse, hclose] at hstep
      refine reads_cons.mpr ⟨next, ?_, hreads⟩
      rwa [State.step, if_neg hopen]

end Steps

/-- The tokens of a phrase that ends at a position take the reader over that phrase. -/
def Feeds (last : Position) (tokens : List Token) : Phrase → Prop
  | .value node => ∀ {outer more root}, Reads (.deliver node outer) more root →
      Reads (.nextValue outer) (tokens ++ more) root
  | .member member => ∀ {first members outer more root},
      Reads (.afterMember first (member :: members) outer) more root →
      Reads (.nextKey first members outer) (tokens ++ more) root
  | .items others => ∀ {first items outer more root},
      Reads (.deliver (.array ⟨first, last⟩ (items.reverse ++ others)) outer) more root →
      Reads (.afterItem first items outer) (tokens ++ more) root
  | .members others => ∀ {first members outer more root},
      Reads (.deliver (.object ⟨first, last⟩ (members.reverse ++ others)) outer) more root →
      Reads (.afterMember first members outer) (tokens ++ more) root

theorem stops_mark {c : Char} (hc : isMark c = true) (rest : List Char) : Stops (c :: rest) := by
  intro other hother
  obtain rfl := Option.some.inj hother
  exact .inr hc

theorem Stops.blank_append {blank rest : List Char} (hblank : Blank blank) (h : Stops rest) :
    Stops (blank ++ rest) := by
  cases blank with
  | nil => exact h
  | cons c tail =>
      intro other hother
      obtain rfl := Option.some.inj hother
      exact .inl (isJsonBlank_iff.mpr (hblank c List.mem_cons_self))

/-- What follows the first item of an array does not continue that item. -/
theorem stops_of_items {limit : Nat} {position : Position} {text : List Char} {nodes : List Node}
    (h : Written limit position text (.items nodes)) (rest : List Char) : Stops (text ++ rest) := by
  cases h with
  | lastItem hblank =>
      rw [List.append_assoc]
      exact .blank_append hblank (stops_mark rfl rest)
  | nextItem hbefore =>
      simp only [List.append_assoc, List.cons_append]
      exact .blank_append hbefore (stops_mark rfl _)

theorem stops_of_members {limit : Nat} {position : Position} {text : List Char}
    {members : List (Member Node)} (h : Written limit position text (.members members))
    (rest : List Char) : Stops (text ++ rest) := by
  cases h with
  | lastMember hblank =>
      rw [List.append_assoc]
      exact .blank_append hblank (stops_mark rfl rest)
  | nextMember hbefore =>
      simp only [List.append_assoc, List.cons_append]
      exact .blank_append hbefore (stops_mark rfl _)

/-- The token of a mark at a position. -/
def markAt (position : Position) (c : Char) : Token :=
  ⟨.mark c, [c], ⟨position, position.past [c]⟩⟩

theorem lexes_mark {c : Char} (hc : isMark c = true) (position : Position) (rest : List Char) :
    Lexes position [c] rest [markAt position c] :=
  lexes_token (splitLexeme?_mark hc rest)

theorem Lexes.mark {c : Char} {position : Position} {text rest : List Char} {tokens : List Token}
    (hc : isMark c = true) (h : Lexes (position.past [c]) text rest tokens) :
    Lexes position (c :: text) rest (markAt position c :: tokens) :=
  (lexes_mark hc position (text ++ rest)).append h

/-! ### Phrases in tokens -/

section Lexes

variable {position : Position} {blank before after text rest more : List Char}
  {opening closing : Char} {tokens left : List Token}

/-- A scalar is one token. -/
theorem lexes_scalar {limit : Nat} {value : Scalar} (h : IsScalar limit text value)
    (hrest : Stops rest) :
    ∃ kind, Lexes position text rest [⟨kind, text, ⟨position, position.past text⟩⟩] ∧
      (∀ c, kind ≠ .mark c) ∧
      (limit ≤ Text.digitLimit → ∀ {range outer}, State.startValue ⟨kind, text, range⟩ outer =
        .ok (.deliver (.scalar range value (String.ofList text)) outer)) := by
  cases h with
  | null | true | false => exact ⟨.word _, lexes_token rfl, nofun, fun _ => rfl⟩
  | number hnumber =>
      refine ⟨.number, lexes_token (splitLexeme?_number hnumber hrest), nofun, ?_⟩
      intro hlimit range outer
      have hread := readNumber_eq_ok_iff.mpr (hnumber.mono hlimit)
      simp [State.startValue, hread]
  | @string body characters hbody =>
      refine ⟨.string, lexes_token (splitLexeme?_string hbody rest), nofun, ?_⟩
      intro _ range outer
      simp only [State.startValue, State.stringOf, drop_dropLast_inQuotes,
        unescape_of_characters hbody]
      rfl

theorem lexes_close (hclose : isMark closing = true) (hblank : Blank blank) :
    Lexes position (blank ++ [closing]) rest [markAt (position.past blank) closing] :=
  (lexes_mark hclose (position.past blank) rest).blank hblank

theorem lexes_empty (hopen : isMark opening = true) (hclose : isMark closing = true)
    (hblank : Blank blank) :
    Lexes position (opening :: blank ++ [closing]) rest
      [markAt position opening, markAt ((position.past [opening]).past blank) closing] :=
  .mark hopen (lexes_close hclose hblank)

/-- A container that is not empty: its bracket, its first part and what follows that. -/
theorem lexes_container (hopen : isMark opening = true) (hblank : Blank blank)
    (htext : Lexes (position.past (opening :: blank)) text (rest ++ more) tokens)
    (hrest : Lexes (position.past (opening :: blank ++ text)) rest more left) :
    Lexes position (opening :: blank ++ text ++ rest) more
      (markAt position opening :: (tokens ++ left)) := by
  rw [Position.past_append] at hrest
  have hlexes := Lexes.mark hopen (.blank hblank (htext.append hrest))
  simpa only [List.cons_append, List.append_assoc] using hlexes

/-- What follows a part of a container, if another one does. -/
theorem lexes_next (hbefore : Blank before) (hafter : Blank after)
    (htext : Lexes (position.past (before ++ ',' :: after)) text (rest ++ more) tokens)
    (hrest : Lexes (position.past (before ++ ',' :: after ++ text)) rest more left) :
    Lexes position (before ++ ',' :: after ++ text ++ rest) more
      (markAt (position.past before) ',' :: (tokens ++ left)) := by
  rw [Position.past_append] at htext hrest
  rw [Position.past_append _ before] at hrest
  have hlexes := Lexes.blank hbefore (.mark (c := ',') rfl (.blank hafter (htext.append hrest)))
  simpa only [List.cons_append, List.append_assoc] using hlexes

theorem lexes_member {body : List Char} {characters : Str} (hbody : Characters body characters)
    (hbefore : Blank before) (hafter : Blank after)
    (htext : Lexes (position.past (inQuotes body ++ before ++ ':' :: after)) text rest tokens) :
    Lexes position (inQuotes body ++ before ++ ':' :: after ++ text) rest
      (⟨.string, inQuotes body, ⟨position, position.past (inQuotes body)⟩⟩ ::
        markAt ((position.past (inQuotes body)).past before) ':' :: tokens) := by
  rw [Position.past_append, Position.past_append] at htext
  have hlexes := Lexes.append (lexes_token (splitLexeme?_string hbody _))
    (.blank hbefore (.mark (c := ':') rfl (.blank hafter htext)))
  simpa only [List.cons_append, List.append_assoc, List.nil_append] using hlexes

end Lexes

/-! ### Phrases and the reader -/

/-- A piece of text falls into tokens that take the reader over a phrase, unless what
follows it continues its last token. -/
def Fed (position : Position) (text : List Char) (phrase : Phrase) : Prop :=
  ∀ {rest}, Stops rest →
    ∃ tokens, Lexes position text rest tokens ∧ Feeds (position.past text) tokens phrase

section Fed

variable {position : Position} {blank before after text rest : List Char}

theorem fed_scalar {value : Scalar} (hscalar : IsScalar Text.digitLimit text value) :
    Fed position text
      (.value (.scalar ⟨position, position.past text⟩ value (String.ofList text))) := by
  intro rest hrest
  obtain ⟨kind, hlexes, -, hstart⟩ := lexes_scalar hscalar hrest
  refine ⟨_, hlexes, ?_⟩
  intro outer more root hreads
  exact reads_cons.mpr ⟨_, hstart le_rfl, hreads⟩

theorem fed_emptyArray (hblank : Blank blank) :
    Fed position ('[' :: blank ++ [']'])
      (.value (.array ⟨position, position.past ('[' :: blank ++ [']'])⟩ [])) := by
  intro rest _
  refine ⟨_, lexes_empty rfl rfl hblank, ?_⟩
  intro outer more root hreads
  rw [Position.past_append] at hreads
  refine reads_cons.mpr ⟨.firstItem position outer, rfl, ?_⟩
  exact reads_cons.mpr ⟨_, rfl, hreads⟩

theorem fed_array {first : Node} {others : List Node} (hblank : Blank blank)
    (hfirst : Fed (position.past ('[' :: blank)) text (.value first))
    (hothers : Fed (position.past ('[' :: blank ++ text)) rest (.items others))
    (hstops : ∀ more, Stops (rest ++ more)) :
    Fed position ('[' :: blank ++ text ++ rest)
      (.value (.array ⟨position, position.past ('[' :: blank ++ text ++ rest)⟩
        (first :: others))) := by
  intro more hmore
  obtain ⟨tokens, htokens, hvalue⟩ := hfirst (hstops more)
  obtain ⟨left, hleft, hitems⟩ := hothers hmore
  refine ⟨_, lexes_container rfl hblank htokens hleft, ?_⟩
  intro outer more root hreads
  rw [← Position.past_append] at hitems
  rw [List.cons_append, List.append_assoc]
  have hitem : Reads (.deliver first (.item position [] :: outer)) (left ++ more) root :=
    hitems hreads
  exact reads_cons.mpr ⟨.firstItem position outer, rfl, (hvalue hitem).firstItem⟩

theorem fed_lastItem (hblank : Blank blank) : Fed position (blank ++ [']']) (.items []) := by
  intro rest _
  refine ⟨_, lexes_close rfl hblank, ?_⟩
  intro first items outer more root hreads
  rw [Position.past_append, List.append_nil] at hreads
  exact reads_cons.mpr ⟨_, rfl, hreads⟩

theorem fed_nextItem {next : Node} {others : List Node} (hbefore : Blank before)
    (hafter : Blank after) (hnext : Fed (position.past (before ++ ',' :: after)) text (.value next))
    (hothers : Fed (position.past (before ++ ',' :: after ++ text)) rest (.items others))
    (hstops : ∀ more, Stops (rest ++ more)) :
    Fed position (before ++ ',' :: after ++ text ++ rest) (.items (next :: others)) := by
  intro more hmore
  obtain ⟨tokens, htokens, hvalue⟩ := hnext (hstops more)
  obtain ⟨left, hleft, hitems⟩ := hothers hmore
  refine ⟨_, lexes_next hbefore hafter htokens hleft, ?_⟩
  intro first items outer more root hreads
  rw [← Position.past_append] at hitems
  rw [List.cons_append, List.append_assoc]
  have hreverse : items.reverse ++ next :: others = (next :: items).reverse ++ others := by simp
  rw [hreverse] at hreads
  have hitem : Reads (.deliver next (.item first items :: outer)) (left ++ more) root :=
    hitems hreads
  exact reads_cons.mpr ⟨.nextValue (.item first items :: outer), rfl, hvalue hitem⟩

theorem fed_member {body : List Char} {characters : Str} {value : Node}
    (hbody : Characters body characters) (hbefore : Blank before) (hafter : Blank after)
    (hvalue : Fed (position.past (inQuotes body ++ before ++ ':' :: after)) text (.value value)) :
    Fed position (inQuotes body ++ before ++ ':' :: after ++ text)
      (.member ⟨keyAt position body characters, value⟩) := by
  intro rest hrest
  obtain ⟨tokens, htokens, hfeeds⟩ := hvalue hrest
  refine ⟨_, lexes_member hbody hbefore hafter htokens, ?_⟩
  intro first members outer more root hreads
  have hkey : State.step (.nextKey first members outer)
      ⟨.string, inQuotes body, ⟨position, position.past (inQuotes body)⟩⟩ =
        .ok (.nextColon first members (keyAt position body characters) outer) := by
    simp only [State.step, State.startMember, State.stringOf, drop_dropLast_inQuotes,
      unescape_of_characters hbody]
    rfl
  have hvalue : Reads (.nextValue (.member first members (keyAt position body characters) ::
      outer)) (tokens ++ more) root := hfeeds hreads
  exact reads_cons.mpr ⟨_, hkey, reads_cons.mpr ⟨_, rfl, hvalue⟩⟩

theorem fed_emptyObject (hblank : Blank blank) :
    Fed position ('\x7b' :: blank ++ ['\x7d'])
      (.value (.object ⟨position, position.past ('\x7b' :: blank ++ ['\x7d'])⟩ [])) := by
  intro rest _
  refine ⟨_, lexes_empty rfl rfl hblank, ?_⟩
  intro outer more root hreads
  rw [Position.past_append] at hreads
  refine reads_cons.mpr ⟨.firstKey position outer, rfl, ?_⟩
  exact reads_cons.mpr ⟨_, rfl, hreads⟩

theorem fed_object {first : Member Node} {others : List (Member Node)} (hblank : Blank blank)
    (hfirst : Fed (position.past ('\x7b' :: blank)) text (.member first))
    (hothers : Fed (position.past ('\x7b' :: blank ++ text)) rest (.members others))
    (hstops : ∀ more, Stops (rest ++ more)) :
    Fed position ('\x7b' :: blank ++ text ++ rest)
      (.value (.object ⟨position, position.past ('\x7b' :: blank ++ text ++ rest)⟩
        (first :: others))) := by
  intro more hmore
  obtain ⟨tokens, htokens, hmember⟩ := hfirst (hstops more)
  obtain ⟨left, hleft, hmembers⟩ := hothers hmore
  refine ⟨_, lexes_container rfl hblank htokens hleft, ?_⟩
  intro outer more root hreads
  rw [← Position.past_append] at hmembers
  rw [List.cons_append, List.append_assoc]
  have hfirst : Reads (.afterMember position [first] outer) (left ++ more) root :=
    hmembers hreads
  exact reads_cons.mpr ⟨.firstKey position outer, rfl, (hmember hfirst).firstKey⟩

theorem fed_lastMember (hblank : Blank blank) :
    Fed position (blank ++ ['\x7d']) (.members []) := by
  intro rest _
  refine ⟨_, lexes_close rfl hblank, ?_⟩
  intro first members outer more root hreads
  rw [Position.past_append, List.append_nil] at hreads
  exact reads_cons.mpr ⟨_, rfl, hreads⟩

theorem fed_nextMember {next : Member Node} {others : List (Member Node)} (hbefore : Blank before)
    (hafter : Blank after)
    (hnext : Fed (position.past (before ++ ',' :: after)) text (.member next))
    (hothers : Fed (position.past (before ++ ',' :: after ++ text)) rest (.members others))
    (hstops : ∀ more, Stops (rest ++ more)) :
    Fed position (before ++ ',' :: after ++ text ++ rest) (.members (next :: others)) := by
  intro more hmore
  obtain ⟨tokens, htokens, hmember⟩ := hnext (hstops more)
  obtain ⟨left, hleft, hmembers⟩ := hothers hmore
  refine ⟨_, lexes_next hbefore hafter htokens hleft, ?_⟩
  intro first members outer more root hreads
  rw [← Position.past_append] at hmembers
  rw [List.cons_append, List.append_assoc]
  have hreverse : members.reverse ++ next :: others = (next :: members).reverse ++ others := by
    simp
  rw [hreverse] at hreads
  exact reads_cons.mpr ⟨.nextKey first members outer, rfl, hmember (hmembers hreads)⟩

end Fed

/-- What is written for a phrase falls into tokens that take the reader over the phrase. -/
theorem Grammar.Written.fed {position : Position} {text : List Char} {phrase : Phrase}
    (h : Written Text.digitLimit position text phrase) : Fed position text phrase := by
  induction h with
  | scalar hscalar => exact fed_scalar hscalar
  | emptyArray hblank => exact fed_emptyArray hblank
  | array hblank _ hrest ihfirst ihrest =>
      exact fed_array hblank ihfirst ihrest (stops_of_items hrest)
  | lastItem hblank => exact fed_lastItem hblank
  | nextItem hbefore hafter _ hrest ihnext ihrest =>
      exact fed_nextItem hbefore hafter ihnext ihrest (stops_of_items hrest)
  | member hbody hbefore hafter _ ih => exact fed_member hbody hbefore hafter ih
  | emptyObject hblank => exact fed_emptyObject hblank
  | object hblank _ hrest ihfirst ihrest =>
      exact fed_object hblank ihfirst ihrest (stops_of_members hrest)
  | lastMember hblank => exact fed_lastMember hblank
  | nextMember hbefore hafter _ hrest ihnext ihrest =>
      exact fed_nextMember hbefore hafter ihnext ihrest (stops_of_members hrest)

theorem Stops.of_blank {text : List Char} (h : Blank text) : Stops text := by
  have hnil : Stops [] := nofun
  have hall := hnil.blank_append h
  rwa [List.append_nil] at hall

/-- Blanks around a piece of text add no tokens. -/
theorem lex_between {before body after : List Char} {tokens : List Token} (hbefore : Blank before)
    (hafter : Blank after) (h : Lexes (Position.start.past before) body after tokens) :
    lex .start (before ++ body ++ after) = (tokens, []) := by
  have hlast (position : Position) : lex position after = ([], []) := by
    have hend : lex position (after ++ []) = lex (position.past after) [] := lex_blank hafter []
    rw [List.append_nil] at hend
    rw [hend, lex, scan_nil]
    rfl
  have hall : Lexes .start (before ++ body) after tokens := h.blank hbefore
  rwa [Lexes, hlast, List.append_nil] at hall

/-- The tokens of a text of the grammar are read to its end. -/
theorem reads_of_isText {text : List Char} {root : Node} (h : IsText Text.digitLimit text root) :
    ∃ tokens, lex .start text = (tokens, []) ∧ Reads (.nextValue []) tokens root := by
  obtain ⟨before, body, after, rfl, hbefore, hafter, hbody⟩ := h
  obtain ⟨tokens, htokens, hfeeds⟩ := hbody.fed (.of_blank hafter)
  refine ⟨tokens, lex_between hbefore hafter htokens, ?_⟩
  have hreads : Reads (.nextValue []) (tokens ++ []) root := hfeeds (reads_nil.mpr rfl)
  rwa [List.append_nil] at hreads

/-! ### Texts and trees -/

theorem tokens_eq_ok_iff {text : List Char} {found : List Token} :
    tokens text = .ok found ↔ lex .start text = (found, []) := by
  rw [tokens, lex]
  split
  next lexemes heq =>
    rw [heq]
    simp
  next lexemes c rest heq =>
    rw [heq]
    simp

theorem lexed_of_tokens {text : List Char} {found : List Token} (h : tokens text = .ok found) :
    Lexed .start text found := by
  have hlex := tokens_eq_ok_iff.mp h
  have hall : Lexed .start text (lex .start text).1 := by
    apply lexed_of_lex
    rw [hlex]
  rwa [hlex] at hall

theorem finish_eq_ok_iff {state : State} {last : Position} {root : Node} :
    state.finish last = .ok root ↔ state = .done root := by
  cases state <;> simp [State.finish]

/-- Reading is finding the tokens and reading them one by one. -/
theorem read_eq_ok {text : String} {root : Node} :
    read text = .ok root ↔
      ∃ found, tokens text.toList = .ok found ∧ Reads (.nextValue []) found root := by
  rw [read, bind_eq_ok]
  refine exists_congr fun found => and_congr_right fun _ => ?_
  rw [bind_eq_ok]
  constructor
  · rintro ⟨state, hstate, hfinish⟩
    rwa [finish_eq_ok_iff.mp hfinish] at hstate
  · exact fun hreads => ⟨.done root, hreads, rfl⟩

theorem isText_of_read {text : String} {root : Node} (h : read text = .ok root) :
    IsText Text.digitLimit text.toList root := by
  obtain ⟨found, hfound, hreads⟩ := read_eq_ok.mp h
  exact isText_of_reads (lexed_of_tokens hfound) hreads

theorem read_of_isText {text : String} {root : Node}
    (h : IsText Text.digitLimit text.toList root) : read text = .ok root := by
  obtain ⟨found, hlex, hreads⟩ := reads_of_isText h
  exact read_eq_ok.mpr ⟨found, tokens_eq_ok_iff.mpr hlex, hreads⟩

/-- A text is read exactly if it is a JSON text whose numbers without fraction and exponent
have at most 4300 digits, and what is read is its tree. -/
theorem read_eq_ok_iff {text : String} {root : Node} :
    read text = .ok root ↔ IsText 4300 text.toList root := by
  constructor
  · intro hread
    exact isText_of_read hread
  · intro htext
    exact read_of_isText htext

end Schemata.Json
