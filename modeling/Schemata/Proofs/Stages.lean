import Schemata.Proofs.Positions

/-!
# Stages of reading

Which token may come next depends on the kinds of the open containers and on where in the
innermost one reading stands, and not on what was read so far. A token that has a value is
accepted exactly if it may come next. The tokens of a JSON text take reading from the first stage
to the last one, and from every stage there are tokens that do.
-/

namespace Schemata.Json

open Grammar Source

/-- The kind of an open container. -/
inductive Container
  | array
  | object

/-- What may come next, inside open containers of the given kinds. -/
inductive Stage
  | nextValue (outer : List Container)
  | firstItem (outer : List Container)
  | firstKey (outer : List Container)
  | nextKey (outer : List Container)
  | nextColon (outer : List Container)
  | afterItem (outer : List Container)
  | afterMember (outer : List Container)
  | done

namespace Stage

/-- The stage after a value inside the given containers. -/
def deliver : List Container → Stage
  | [] => done
  | .array :: outer => afterItem outer
  | .object :: outer => afterMember outer

def startValue (kind : TokenKind) (outer : List Container) : Option Stage :=
  match kind with
  | .mark c =>
      if c = '\x7b' then some (firstKey outer)
      else if c = '[' then some (firstItem outer)
      else none
  | _ => some (deliver outer)

def startMember (kind : TokenKind) (outer : List Container) : Option Stage :=
  if kind = .string then some (nextColon outer) else none

/-- The stage after a token, if that token may come next. -/
def step (stage : Stage) (kind : TokenKind) : Option Stage :=
  match stage with
  | nextValue outer => startValue kind outer
  | firstItem outer =>
      if kind = .mark ']' then some (deliver outer) else startValue kind (.array :: outer)
  | firstKey outer =>
      if kind = .mark '\x7d' then some (deliver outer) else startMember kind outer
  | nextKey outer => startMember kind outer
  | nextColon outer => if kind = .mark ':' then some (nextValue (.object :: outer)) else none
  | afterItem outer =>
      if kind = .mark ']' then some (deliver outer)
      else if kind = .mark ',' then some (nextValue (.array :: outer))
      else none
  | afterMember outer =>
      if kind = .mark '\x7d' then some (deliver outer)
      else if kind = .mark ',' then some (nextKey outer)
      else none
  | done => none

def run (stage : Stage) (kinds : List TokenKind) : Option Stage :=
  kinds.foldlM step stage

@[simp] theorem run_nil (stage : Stage) : stage.run [] = some stage := rfl

@[simp] theorem run_cons (stage : Stage) (kind : TokenKind) (kinds : List TokenKind) :
    stage.run (kind :: kinds) = (stage.step kind).bind fun next => next.run kinds := rfl

@[simp] theorem run_append (stage : Stage) (kinds others : List TokenKind) :
    stage.run (kinds ++ others) = (stage.run kinds).bind fun next => next.run others :=
  List.foldlM_append

end Stage

/-! ### Stages of the reader -/

def Pending.container : Pending → Container
  | item _ _ => .array
  | member _ _ _ => .object

/-- The stage of a state, without what was read. -/
def State.stage : State → Stage
  | nextValue outer => .nextValue (outer.map Pending.container)
  | firstItem _ outer => .firstItem (outer.map Pending.container)
  | firstKey _ outer => .firstKey (outer.map Pending.container)
  | nextKey _ _ outer => .nextKey (outer.map Pending.container)
  | nextColon _ _ _ outer => .nextColon (outer.map Pending.container)
  | afterItem _ _ outer => .afterItem (outer.map Pending.container)
  | afterMember _ _ outer => .afterMember (outer.map Pending.container)
  | done _ => .done

@[simp] theorem stage_deliver (node : Node) (outer : List Pending) :
    (State.deliver node outer).stage = .deliver (outer.map Pending.container) := by
  cases outer with
  | nil => rfl
  | cons pending outer => cases pending <;> rfl

theorem stage_eq_done {state : State} (h : state.stage = .done) : ∃ root, state = .done root := by
  cases state with
  | done root => exact ⟨root, rfl⟩
  | _ => cases h

/-- A token by its kind and text that has a value if it needs one. -/
inductive Legible : TokenKind → List Char → Prop
  | mark {c : Char} (hc : isMark c = true) : Legible (.mark c) [c]
  | word {text : List Char} {value : Scalar} (hword : (text, value) ∈ words) :
      Legible (.word value) text
  | string {body : List Char} {characters : Str} (hbody : Characters body characters) :
      Legible .string (inQuotes body)
  | number {text : List Char} {number : Number} (hnumber : IsNumber Text.digitLimit text number) :
      Legible .number text

/-- A token at a position is accepted into the stage that it leads to, or it is refused at its
position since it leads to none. -/
inductive Agrees (position : Position) : Except ReadError State → Option Stage → Prop
  | accepted {next : State} {stage : Stage} (hstage : next.stage = stage) :
      Agrees position (.ok next) (some stage)
  | refused {fault : Fault} (hfault : fault ≠ .endOfInput) :
      Agrees position (.error (.malformed fault position)) none

section Agrees

variable {kind : TokenKind} {text : List Char} {range : Range} {outer : List Pending}

theorem stringOf_of_legible (h : Legible .string text) (range : Range) :
    ∃ characters, State.stringOf ⟨.string, text, range⟩ = .ok characters := by
  cases h with
  | @string body characters hbody =>
      refine ⟨characters, ?_⟩
      rw [State.stringOf, drop_dropLast_inQuotes, unescape_of_characters hbody]
      rfl

theorem agrees_startValue (h : Legible kind text) (outer : List Pending) :
    Agrees range.first (State.startValue ⟨kind, text, range⟩ outer)
      (Stage.startValue kind (outer.map Pending.container)) := by
  cases h with
  | @mark c hc =>
      simp only [State.startValue, Stage.startValue]
      split
      · exact .accepted rfl
      split
      · exact .accepted rfl
      · exact .refused (by simp)
  | word => exact .accepted (stage_deliver ..)
  | string hbody =>
      obtain ⟨characters, hstring⟩ := stringOf_of_legible (.string hbody) range
      simp only [State.startValue, hstring]
      exact .accepted (stage_deliver ..)
  | number hnumber =>
      simp only [State.startValue, readNumber_eq_ok_iff.mpr hnumber]
      exact .accepted (stage_deliver ..)

theorem agrees_startMember (h : Legible kind text) (first : Position)
    (members : List (Member Node)) :
    Agrees range.first (State.startMember first members outer ⟨kind, text, range⟩)
      (Stage.startMember kind (outer.map Pending.container)) := by
  by_cases hkind : kind = .string
  · subst hkind
    obtain ⟨characters, hstring⟩ := stringOf_of_legible h range
    simp only [State.startMember, Stage.startMember, if_true, hstring]
    exact .accepted rfl
  · simp only [State.startMember, Stage.startMember, if_neg hkind]
    exact .refused (by simp)

/-- A token that has a value is accepted exactly if it may come next. -/
theorem agrees_step {token : Token} (h : Legible token.kind token.text) (state : State) :
    Agrees token.range.first (state.step token) (state.stage.step token.kind) := by
  obtain ⟨kind, text, range⟩ := token
  dsimp only at h ⊢
  cases state with
  | nextValue outer => exact agrees_startValue h outer
  | firstItem first outer =>
      simp only [State.step, State.stage, Stage.step]
      split
      · exact .accepted (stage_deliver ..)
      · exact agrees_startValue h (.item first [] :: outer)
  | firstKey first outer =>
      simp only [State.step, State.stage, Stage.step]
      split
      · exact .accepted (stage_deliver ..)
      · exact agrees_startMember h first []
  | nextKey first members => exact agrees_startMember h first members
  | nextColon =>
      simp only [State.step, State.stage, Stage.step]
      split
      · exact .accepted rfl
      · exact .refused (by simp)
  | afterItem | afterMember =>
      simp only [State.step, State.stage, Stage.step]
      split
      · exact .accepted (stage_deliver ..)
      split
      · exact .accepted rfl
      · exact .refused (by simp)
  | done => exact .refused (by simp)

end Agrees

section Runs

variable {state next : State} {token : Token} {tokens : List Token}

theorem step_of_stage {stage : Stage} (h : Legible token.kind token.text)
    (hstep : state.stage.step token.kind = some stage) :
    ∃ next, state.step token = .ok next ∧ next.stage = stage := by
  have hagrees := agrees_step h state
  rw [hstep] at hagrees
  cases hresult : state.step token with
  | ok next =>
      rw [hresult] at hagrees
      cases hagrees with
      | accepted hstage => exact ⟨next, rfl, hstage⟩
  | error =>
      rw [hresult] at hagrees
      cases hagrees

theorem stage_of_step (h : Legible token.kind token.text) (hstep : state.step token = .ok next) :
    state.stage.step token.kind = some next.stage := by
  have hagrees := agrees_step h state
  rw [hstep] at hagrees
  cases hstage : state.stage.step token.kind with
  | none =>
      rw [hstage] at hagrees
      cases hagrees
  | some stage =>
      rw [hstage] at hagrees
      cases hagrees with
      | accepted hnext => rw [hnext]

theorem stage_of_refused {fault : Fault} {position : Position} (h : Legible token.kind token.text)
    (hstep : state.step token = .error (.malformed fault position)) :
    fault ≠ .endOfInput ∧ position = token.range.first ∧
      state.stage.step token.kind = none := by
  have hagrees := agrees_step h state
  rw [hstep] at hagrees
  cases hstage : state.stage.step token.kind with
  | none =>
      rw [hstage] at hagrees
      cases hagrees with
      | refused hfault => exact ⟨hfault, rfl, rfl⟩
  | some stage =>
      rw [hstage] at hagrees
      cases hagrees

/-- Tokens that have values are read as far as their kinds lead from stage to stage. -/
theorem fold_of_run {stage : Stage} (h : ∀ token ∈ tokens, Legible token.kind token.text)
    (hrun : state.stage.run (tokens.map Token.kind) = some stage) :
    ∃ last, tokens.foldlM State.step state = .ok last ∧ last.stage = stage := by
  induction tokens generalizing state with
  | nil => exact ⟨state, rfl, Option.some.inj hrun⟩
  | cons token tokens ih =>
      obtain ⟨middle, hstep, hrest⟩ := Option.bind_eq_some_iff.mp hrun
      obtain ⟨next, hnext, rfl⟩ := step_of_stage (h token List.mem_cons_self) hstep
      obtain ⟨last, hlast, hstage⟩ := ih (fun other hother =>
        h other (List.mem_cons_of_mem token hother)) hrest
      refine ⟨last, ?_, hstage⟩
      rw [List.foldlM_cons, hnext]
      exact hlast

theorem run_of_fold (h : ∀ token ∈ tokens, Legible token.kind token.text)
    (hfold : tokens.foldlM State.step state = .ok next) :
    state.stage.run (tokens.map Token.kind) = some next.stage := by
  induction tokens generalizing state with
  | nil =>
      obtain rfl := Except.ok.inj hfold
      rfl
  | cons token tokens ih =>
      rw [List.foldlM_cons] at hfold
      obtain ⟨middle, hstep, hrest⟩ := bind_eq_ok.mp hfold
      rw [List.map_cons, Stage.run_cons, stage_of_step (h token List.mem_cons_self) hstep]
      exact ih (fun other hother => h other (List.mem_cons_of_mem token hother)) hrest

end Runs

/-! ### Stages of the grammar -/

/-- The kinds of the tokens of a phrase take reading over that phrase, whatever is open around
it. -/
def Accepts (kinds : List TokenKind) : Phrase → Prop
  | .value _ => ∀ outer, (Stage.nextValue outer).run kinds = some (.deliver outer)
  | .member _ => ∀ outer, (Stage.nextKey outer).run kinds = some (.afterMember outer)
  | .items _ => ∀ outer, (Stage.afterItem outer).run kinds = some (.deliver outer)
  | .members _ => ∀ outer, (Stage.afterMember outer).run kinds = some (.deliver outer)

namespace Stage

variable {kinds : List TokenKind} {outer : List Container}

/-- A value never starts with a closing bracket. -/
theorem run_firstItem (h : (nextValue (.array :: outer)).run kinds = some (afterItem outer)) :
    (firstItem outer).run kinds = some (afterItem outer) := by
  cases kinds with
  | nil => cases h
  | cons kind kinds =>
      have hopen : kind ≠ .mark ']' := by
        rintro rfl
        simp [step, startValue] at h
      rwa [run_cons, step, if_neg hopen]

theorem run_firstKey (h : (nextKey outer).run kinds = some (afterMember outer)) :
    (firstKey outer).run kinds = some (afterMember outer) := by
  cases kinds with
  | nil => cases h
  | cons kind kinds =>
      have hopen : kind ≠ .mark '\x7d' := by
        rintro rfl
        simp [step, startMember] at h
      rwa [run_cons, step, if_neg hopen]

end Stage

/-- A piece of text falls into tokens that take reading over a phrase, unless what follows it
continues its last token. -/
def Taken (position : Position) (text : List Char) (phrase : Phrase) : Prop :=
  ∀ {rest}, Stops rest →
    ∃ tokens, Lexes position text rest tokens ∧ Accepts (tokens.map Token.kind) phrase

section Taken

variable {position : Position} {blank before after text rest : List Char} {range : Range}

theorem taken_scalar {limit : Nat} {value : Scalar} {raw : String}
    (hscalar : IsScalar limit text value) :
    Taken position text (.value (.scalar range value raw)) := by
  intro rest hrest
  obtain ⟨kind, hlexes, hkind, -⟩ := lexes_scalar hscalar hrest
  refine ⟨_, hlexes, fun outer => ?_⟩
  cases kind with
  | mark c => exact absurd rfl (hkind c)
  | word | number | string => rfl

theorem taken_emptyArray (hblank : Blank blank) :
    Taken position ('[' :: blank ++ [']']) (.value (.array range [])) :=
  fun _ => ⟨_, lexes_empty rfl rfl hblank, fun _ => rfl⟩

theorem taken_emptyObject (hblank : Blank blank) :
    Taken position ('\x7b' :: blank ++ ['\x7d']) (.value (.object range [])) :=
  fun _ => ⟨_, lexes_empty rfl rfl hblank, fun _ => rfl⟩

theorem taken_lastItem (hblank : Blank blank) : Taken position (blank ++ [']']) (.items []) :=
  fun _ => ⟨_, lexes_close rfl hblank, fun _ => rfl⟩

theorem taken_lastMember (hblank : Blank blank) :
    Taken position (blank ++ ['\x7d']) (.members []) :=
  fun _ => ⟨_, lexes_close rfl hblank, fun _ => rfl⟩

theorem taken_array {first : Node} {others : List Node} (hblank : Blank blank)
    (hfirst : Taken (position.past ('[' :: blank)) text (.value first))
    (hothers : Taken (position.past ('[' :: blank ++ text)) rest (.items others))
    (hstops : ∀ more, Stops (rest ++ more)) :
    Taken position ('[' :: blank ++ text ++ rest) (.value (.array range (first :: others))) := by
  intro more hmore
  obtain ⟨tokens, htokens, hvalue⟩ := hfirst (hstops more)
  obtain ⟨left, hleft, hitems⟩ := hothers hmore
  refine ⟨_, lexes_container rfl hblank htokens hleft, fun outer => ?_⟩
  have hitem := Stage.run_firstItem (hvalue (.array :: outer))
  have hopen : (Stage.nextValue outer).step (.mark '[') = some (.firstItem outer) := rfl
  rw [List.map_cons, List.map_append, Stage.run_cons, markAt, hopen, Option.bind_some,
    Stage.run_append, hitem]
  exact hitems outer

theorem taken_object {first : Member Node} {others : List (Member Node)} (hblank : Blank blank)
    (hfirst : Taken (position.past ('\x7b' :: blank)) text (.member first))
    (hothers : Taken (position.past ('\x7b' :: blank ++ text)) rest (.members others))
    (hstops : ∀ more, Stops (rest ++ more)) :
    Taken position ('\x7b' :: blank ++ text ++ rest)
      (.value (.object range (first :: others))) := by
  intro more hmore
  obtain ⟨tokens, htokens, hmember⟩ := hfirst (hstops more)
  obtain ⟨left, hleft, hmembers⟩ := hothers hmore
  refine ⟨_, lexes_container rfl hblank htokens hleft, fun outer => ?_⟩
  have hfirst := Stage.run_firstKey (hmember outer)
  have hopen : (Stage.nextValue outer).step (.mark '\x7b') = some (.firstKey outer) := rfl
  rw [List.map_cons, List.map_append, Stage.run_cons, markAt, hopen, Option.bind_some,
    Stage.run_append, hfirst]
  exact hmembers outer

theorem taken_nextItem {next : Node} {others : List Node} (hbefore : Blank before)
    (hafter : Blank after)
    (hnext : Taken (position.past (before ++ ',' :: after)) text (.value next))
    (hothers : Taken (position.past (before ++ ',' :: after ++ text)) rest (.items others))
    (hstops : ∀ more, Stops (rest ++ more)) :
    Taken position (before ++ ',' :: after ++ text ++ rest) (.items (next :: others)) := by
  intro more hmore
  obtain ⟨tokens, htokens, hvalue⟩ := hnext (hstops more)
  obtain ⟨left, hleft, hitems⟩ := hothers hmore
  refine ⟨_, lexes_next hbefore hafter htokens hleft, fun outer => ?_⟩
  have hcomma : (Stage.afterItem outer).step (.mark ',') = some (.nextValue (.array :: outer)) :=
    rfl
  rw [List.map_cons, List.map_append, Stage.run_cons, markAt, hcomma, Option.bind_some,
    Stage.run_append, hvalue]
  exact hitems outer

theorem taken_nextMember {next : Member Node} {others : List (Member Node)}
    (hbefore : Blank before) (hafter : Blank after)
    (hnext : Taken (position.past (before ++ ',' :: after)) text (.member next))
    (hothers : Taken (position.past (before ++ ',' :: after ++ text)) rest (.members others))
    (hstops : ∀ more, Stops (rest ++ more)) :
    Taken position (before ++ ',' :: after ++ text ++ rest) (.members (next :: others)) := by
  intro more hmore
  obtain ⟨tokens, htokens, hmember⟩ := hnext (hstops more)
  obtain ⟨left, hleft, hmembers⟩ := hothers hmore
  refine ⟨_, lexes_next hbefore hafter htokens hleft, fun outer => ?_⟩
  have hcomma : (Stage.afterMember outer).step (.mark ',') = some (.nextKey outer) := rfl
  rw [List.map_cons, List.map_append, Stage.run_cons, markAt, hcomma, Option.bind_some,
    Stage.run_append, hmember]
  exact hmembers outer

theorem taken_member {body : List Char} {characters : Str} {key : Key} {value : Node}
    (hbody : Characters body characters) (hbefore : Blank before) (hafter : Blank after)
    (hvalue : Taken (position.past (inQuotes body ++ before ++ ':' :: after)) text
      (.value value)) :
    Taken position (inQuotes body ++ before ++ ':' :: after ++ text) (.member ⟨key, value⟩) := by
  intro rest hrest
  obtain ⟨tokens, htokens, haccepts⟩ := hvalue hrest
  exact ⟨_, lexes_member hbody hbefore hafter htokens, fun outer => haccepts (.object :: outer)⟩

end Taken

theorem Grammar.Written.taken {limit : Nat} {position : Position} {text : List Char}
    {phrase : Phrase} (h : Written limit position text phrase) : Taken position text phrase := by
  induction h with
  | scalar hscalar => exact taken_scalar hscalar
  | emptyArray hblank => exact taken_emptyArray hblank
  | array hblank _ hrest ihfirst ihrest =>
      exact taken_array hblank ihfirst ihrest (stops_of_items hrest)
  | lastItem hblank => exact taken_lastItem hblank
  | nextItem hbefore hafter _ hrest ihnext ihrest =>
      exact taken_nextItem hbefore hafter ihnext ihrest (stops_of_items hrest)
  | member hbody hbefore hafter _ ih => exact taken_member hbody hbefore hafter ih
  | emptyObject hblank => exact taken_emptyObject hblank
  | object hblank _ hrest ihfirst ihrest =>
      exact taken_object hblank ihfirst ihrest (stops_of_members hrest)
  | lastMember hblank => exact taken_lastMember hblank
  | nextMember hbefore hafter _ hrest ihnext ihrest =>
      exact taken_nextMember hbefore hafter ihnext ihrest (stops_of_members hrest)

/-- The tokens of a JSON text lead to the last stage, however many digits its numbers have. -/
theorem run_of_isText {limit : Nat} {text : List Char} {root : Node} {found : List Token}
    (htext : IsText limit text root) (hfound : tokens text = .ok found) :
    (Stage.nextValue []).run (found.map Token.kind) = some .done := by
  obtain ⟨before, body, after, rfl, hbefore, hafter, hbody⟩ := htext
  obtain ⟨others, hothers, haccepts⟩ := hbody.taken (.of_blank hafter)
  have hlex : lex .start (before ++ body ++ after) = (others, []) :=
    lex_between hbefore hafter hothers
  obtain rfl : others = found := by
    rw [tokens_eq_ok_iff, hlex] at hfound
    exact congrArg Prod.fst hfound
  exact haccepts []

/-! ### The rest of a text -/

/-- A token by its kind and text. -/
abbrev Symbol := TokenKind × List Char

/-- The bracket that closes a container. -/
def Container.closer : Container → Symbol
  | array => (.mark ']', [']'])
  | object => (.mark '\x7d', ['\x7d'])

def colonNull : List Symbol :=
  [(.mark ':', [':']), (.word .null, ['n', 'u', 'l', 'l'])]

/-- Tokens that end a text at a stage: a null where a value is missing and an empty key where a
key is, and the brackets of what is open. -/
def Stage.completion : Stage → List Symbol
  | nextValue outer => (.word .null, ['n', 'u', 'l', 'l']) :: outer.map Container.closer
  | firstItem outer | afterItem outer => (Container.array :: outer).map Container.closer
  | firstKey outer | afterMember outer => (Container.object :: outer).map Container.closer
  | nextKey outer =>
      (.string, inQuotes []) :: colonNull ++ (Container.object :: outer).map Container.closer
  | nextColon outer => colonNull ++ (Container.object :: outer).map Container.closer
  | done => []

theorem run_closers (outer : List Container) :
    (Stage.deliver outer).run ((outer.map Container.closer).map Prod.fst) = some .done := by
  induction outer with
  | nil => rfl
  | cons container outer ih => cases container <;> exact ih

theorem run_completion (stage : Stage) :
    stage.run (stage.completion.map Prod.fst) = some .done := by
  cases stage with
  | done => rfl
  | _ => exact run_closers _

theorem legible_closer (container : Container) :
    Legible container.closer.1 container.closer.2 := by
  cases container <;> exact .mark rfl

theorem legible_colonNull : ∀ symbol ∈ colonNull, Legible symbol.1 symbol.2 := by
  simp only [colonNull, List.mem_cons, List.not_mem_nil, or_false, forall_eq_or_imp, forall_eq]
  exact ⟨.mark rfl, .word (by simp [words])⟩

theorem legible_completion (stage : Stage) :
    ∀ symbol ∈ stage.completion, Legible symbol.1 symbol.2 := by
  have hclosers (outer : List Container) :
      ∀ symbol ∈ outer.map Container.closer, Legible symbol.1 symbol.2 := by
    intro symbol hsymbol
    obtain ⟨container, -, rfl⟩ := List.mem_map.mp hsymbol
    exact legible_closer container
  have hempty : Legible .string (inQuotes []) := .string ⟨[], .nil, .nil⟩
  intro symbol hsymbol
  cases stage with
  | nextValue outer =>
      rcases List.mem_cons.mp hsymbol with rfl | hrest
      · exact .word (by simp [words])
      · exact hclosers outer symbol hrest
  | firstItem outer | afterItem outer | firstKey outer | afterMember outer =>
      exact hclosers _ symbol hsymbol
  | nextKey outer =>
      rcases List.mem_append.mp hsymbol with hrest | hrest
      · rcases List.mem_cons.mp hrest with rfl | hrest
        · exact hempty
        · exact legible_colonNull symbol hrest
      · exact hclosers _ symbol hrest
  | nextColon outer =>
      rcases List.mem_append.mp hsymbol with hrest | hrest
      · exact legible_colonNull symbol hrest
      · exact hclosers _ symbol hrest
  | done => exact absurd hsymbol List.not_mem_nil

theorem completion_ne_nil {stage : Stage} (h : stage ≠ .done) : stage.completion ≠ [] := by
  cases stage with
  | done => exact absurd rfl h
  | _ => exact List.cons_ne_nil _ _

end Schemata.Json
