import Schemata.Cli.Run
import Schemata.Proofs.WrittenValues

/-!
# Options that a configuration sets

A configuration is written in JSON, so its integers keep to the limit of digits, and no string in
it holds a pair of surrogates. What is read from the tokens so far has no other parts, and so it is
with the options that they set.
-/

namespace Schemata.Config

open Json Grammar
open Json (Value)

/-- All parts of a value can be read from some text. -/
abbrev Readable (value : Value) : Prop :=
  value.AllReadable Text.digitLimit

/-- A name that can be read, and a value. -/
abbrev ReadableEntry (entry : Str × Value) : Prop :=
  entry.1.PairFree ∧ Readable entry.2

/-! ### Tokens -/

/-- A literal of one digit is beyond the range if its exponent is great enough. -/
theorem hasText_infinite (limit : Nat) (negative : Bool) :
    HasText limit (.float (.infinite negative)) := by
  have hwhole : Whole ['1'] := ⟨⟨by decide, by simp⟩, by decide⟩
  have hdigits : Digits ['4', '0', '0'] := ⟨by decide, by simp⟩
  have hnumber : IsNumber limit _ (.float (.ofDecimal negative 1 400)) :=
    .float hwhole .absent (.unsigned (.inl rfl) hdigits) (.inr (List.cons_ne_nil _ _))
  have hvalue : Binary64.ofDecimal negative 1 400 = .infinite negative := by
    cases negative <;> decide +kernel
  exact ⟨_, hvalue ▸ hnumber⟩

theorem readable_word {word : List Char × Value} (h : word ∈ words) : Readable word.2 := by
  simp only [words, List.mem_cons, List.not_mem_nil, or_false] at h
  rcases h with rfl | rfl | rfl | rfl | rfl | rfl
  · exact every_scalar.mpr trivial
  · exact every_scalar.mpr trivial
  · exact every_scalar.mpr trivial
  · exact every_nan.mpr trivial
  · exact every_scalar.mpr (hasText_infinite _ false)
  · exact every_scalar.mpr (hasText_infinite _ true)

theorem readable_numberValue {text rest : List Char} {numeral : Numeral} {value : Value}
    (hsplit : Numeral.split? isAsciiDigit text = some (numeral, rest))
    (h : numberValue numeral = .ok value) : Readable value := by
  obtain ⟨decimals, power, hwhole, hfraction, hexponent⟩ :=
    Numeral.parts_of_split? hsplit fun _ _ hdigit => hdigit
  obtain ⟨number, hnumber, rfl⟩ := map_eq_ok.mp h
  rw [mapError_eq_ok] at hnumber
  exact every_scalar.mpr ⟨_, Numeral.isNumber_of_number hwhole hfraction hexponent hnumber⟩

/-- A token whose string or other value can be read. -/
def TokenKind.Readable : TokenKind → Prop
  | .string (.ok text) => text.PairFree
  | .scalar (.ok value) => Config.Readable value
  | _ => True

theorem readable_kindAt (c : Char) (rest : List Char) : (kindAt c rest).1.Readable := by
  unfold kindAt
  split
  · trivial
  split
  · split
    · exact pairFree_joinPairs _
    · trivial
  split
  next word value hfound => exact readable_word (List.mem_of_find?_eq_some hfound)
  next =>
    split
    next numeral after hsplit =>
      cases hvalue : numberValue numeral with
      | ok value => exact readable_numberValue hsplit hvalue
      | error => trivial
    next => trivial

theorem readable_tokens {text : List Char} {token : Token} (htoken : token ∈ tokens text) :
    token.kind.Readable := by
  fun_induction tokens text with
  | case1 => exact absurd htoken List.not_mem_nil
  | case2 c rest hblank ih => exact ih htoken
  | case3 c rest hblank ih =>
      rcases List.mem_cons.mp htoken with rfl | hrest
      · exact readable_kindAt c rest
      · exact ih hrest

/-! ### States -/

theorem mem_of_mem_setEntry {name : Str} {value : Value} {entry : Str × Value}
    {entries : List (Str × Value)} (h : entry ∈ setEntry name value entries) :
    entry = (name, value) ∨ entry ∈ entries := by
  induction entries with
  | nil => exact .inl (List.mem_singleton.mp h)
  | cons first rest ih =>
      unfold setEntry at h
      split at h
      · rcases List.mem_cons.mp h with rfl | hrest
        · exact .inl rfl
        · exact .inr (List.mem_cons_of_mem _ hrest)
      · rcases List.mem_cons.mp h with rfl | hrest
        · exact .inr List.mem_cons_self
        · exact (ih hrest).imp_right (List.mem_cons_of_mem _)

theorem readable_table {entries : List (Str × Value)}
    (h : ∀ entry ∈ entries, ReadableEntry entry) : Readable (table entries) := by
  refine allReadable_object.mpr ?_
  refine List.foldlRecOn (motive := fun found => ∀ entry ∈ found, ReadableEntry entry) entries _
    (List.forall_mem_nil _) fun found hfound entry hentry other hother => ?_
  rcases mem_of_mem_setEntry hother with rfl | hother
  · exact h entry hentry
  · exact hfound other hother

def Pending.Readable : Pending → Prop
  | item items => ∀ item ∈ items, Config.Readable item
  | entry entries key => (∀ entry ∈ entries, ReadableEntry entry) ∧ key.PairFree

/-- All of what was read so far can be read from some text. -/
def State.Readable : State → Prop
  | nextValue outer | firstItem outer | firstKey outer => ∀ pending ∈ outer, pending.Readable
  | nextKey entries outer | afterEntry entries outer =>
      (∀ entry ∈ entries, ReadableEntry entry) ∧ ∀ pending ∈ outer, pending.Readable
  | nextColon entries key outer =>
      (Pending.entry entries key).Readable ∧ ∀ pending ∈ outer, pending.Readable
  | afterItem items outer =>
      (∀ item ∈ items, Config.Readable item) ∧ ∀ pending ∈ outer, pending.Readable
  | done value => Config.Readable value

namespace State

variable {state next : State} {token : Token} {outer : List Pending} {value : Value}

theorem readable_deliver (hvalue : Config.Readable value)
    (houter : ∀ pending ∈ outer, pending.Readable) : (deliver value outer).Readable := by
  cases outer with
  | nil => exact hvalue
  | cons pending outer =>
      obtain ⟨hpending, hothers⟩ := List.forall_mem_cons.mp houter
      cases pending with
      | item => exact ⟨List.forall_mem_cons.mpr ⟨hvalue, hpending⟩, hothers⟩
      | entry =>
          exact ⟨List.forall_mem_cons.mpr ⟨⟨hpending.2, hvalue⟩, hpending.1⟩, hothers⟩

theorem readable_startValue (htoken : token.kind.Readable)
    (houter : ∀ pending ∈ outer, pending.Readable)
    (h : startValue token outer = .ok next) : next.Readable := by
  unfold startValue at h
  split at h
  · split at h
    · obtain rfl := Except.ok.inj h
      exact houter
    split at h
    · obtain rfl := Except.ok.inj h
      exact houter
    · cases h
  next hkind =>
    obtain ⟨text, rfl, rfl⟩ := map_eq_ok.mp h
    rw [hkind] at htoken
    exact readable_deliver (allReadable_string.mpr htoken) houter
  next hkind =>
    obtain ⟨value, rfl, rfl⟩ := map_eq_ok.mp h
    rw [hkind] at htoken
    exact readable_deliver htoken houter
  · cases h

theorem readable_startEntry {entries : List (Str × Value)} (htoken : token.kind.Readable)
    (hentries : ∀ entry ∈ entries, ReadableEntry entry)
    (houter : ∀ pending ∈ outer, pending.Readable)
    (h : startEntry entries outer token = .ok next) : next.Readable := by
  unfold startEntry at h
  split at h
  next hkind =>
    obtain ⟨text, rfl, rfl⟩ := map_eq_ok.mp h
    rw [hkind] at htoken
    exact ⟨⟨hentries, htoken⟩, houter⟩
  · cases h

theorem readable_step (htoken : token.kind.Readable) (hstate : state.Readable)
    (h : state.step token = .ok next) : next.Readable := by
  cases state with
  | nextValue outer => exact readable_startValue htoken hstate h
  | firstItem outer =>
      simp only [step] at h
      split at h
      · obtain rfl := Except.ok.inj h
        exact readable_deliver (allReadable_array.mpr (List.forall_mem_nil _)) hstate
      · refine readable_startValue htoken ?_ h
        exact List.forall_mem_cons.mpr ⟨List.forall_mem_nil _, hstate⟩
  | firstKey outer =>
      simp only [step] at h
      split at h
      · obtain rfl := Except.ok.inj h
        exact readable_deliver (allReadable_object.mpr (List.forall_mem_nil _)) hstate
      · exact readable_startEntry htoken (List.forall_mem_nil _) hstate h
  | nextKey entries outer => exact readable_startEntry htoken hstate.1 hstate.2 h
  | nextColon entries key outer =>
      simp only [step] at h
      split at h
      · obtain rfl := Except.ok.inj h
        exact List.forall_mem_cons.mpr hstate
      · cases h
  | afterItem items outer =>
      simp only [step] at h
      split at h
      · obtain rfl := Except.ok.inj h
        refine readable_deliver (allReadable_array.mpr fun item hitem => ?_) hstate.2
        exact hstate.1 item (List.mem_reverse.mp hitem)
      split at h
      · obtain rfl := Except.ok.inj h
        exact List.forall_mem_cons.mpr hstate
      · cases h
  | afterEntry entries outer =>
      simp only [step] at h
      split at h
      · obtain rfl := Except.ok.inj h
        refine readable_deliver (readable_table fun entry hentry => ?_) hstate.2
        exact hstate.1 entry (List.mem_reverse.mp hentry)
      split at h
      · obtain rfl := Except.ok.inj h
        exact hstate
      · cases h
  | done => cases h

theorem readable_run {tokens : List Token} (htokens : ∀ token ∈ tokens, token.kind.Readable)
    (hstate : state.Readable) (h : tokens.foldlM step state = .ok next) : next.Readable := by
  induction tokens generalizing state with
  | nil =>
      obtain rfl := Except.ok.inj h
      exact hstate
  | cons token rest ih =>
      obtain ⟨htoken, hrest⟩ := List.forall_mem_cons.mp htokens
      obtain ⟨middle, hmiddle, hlast⟩ := bind_eq_ok.mp h
      exact ih hrest (readable_step htoken hstate hmiddle) hlast

end State

theorem readable_of_read {text : String} {value : Value} (h : read text = .ok value) :
    Readable value := by
  have hread : readCharacters text.toList = .ok value := mapError_eq_ok.mp h
  unfold readCharacters at hread
  split at hread
  · cases hread
  · obtain ⟨state, hstate, hfinish⟩ := bind_eq_ok.mp hread
    have hstart : (State.nextValue []).Readable := fun _ h => absurd h List.not_mem_nil
    have hreadable : state.Readable :=
      State.readable_run (fun _ htoken => readable_tokens htoken) hstart hstate
    cases state with
    | done found =>
        obtain rfl := Except.ok.inj hfinish
        exact hreadable
    | _ => cases hfinish

end Schemata.Config

namespace Schemata

open Json Grammar

/-! ### Options -/

/-- The root name and the version can be read from some text. -/
structure Options.Readable (options : Options) : Prop where
  rootName : options.rootName.PairFree
  majorVersion : options.majorVersion.AllReadable Text.digitLimit

namespace Options

variable {entries : List (Str × Value)} {options : Options}

theorem readable_default : Options.Readable {} where
  rootName := Str.pairFree_nil
  majorVersion :=
    allReadable_number.mpr ⟨_, isNumber_integer (by decide) (Nat.pow_pos (by decide))⟩

theorem mem_of_lookup {name : Str} {value : Value} (h : entries.lookup name = some value) :
    (name, value) ∈ entries := by
  obtain ⟨before, after, rfl, -⟩ := List.lookup_eq_some_iff.mp h
  exact List.mem_append_right _ List.mem_cons_self

/-- An option is as by default, or as an entry of the configuration says. -/
theorem option_eq_ok {α : Type} {name : String} {read? : Value → Option α} {default setting : α}
    (h : option entries name read? default = .ok setting) :
    setting = default ∨ ∃ entry ∈ entries, read? entry.2 = some setting := by
  unfold option at h
  split at h
  · exact .inl (Except.ok.inj h).symm
  next value hvalue =>
    split at h
    next found hfound =>
      obtain rfl := Except.ok.inj h
      exact .inr ⟨(name, value), mem_of_lookup hvalue, hfound⟩
    next => cases h

theorem pairFree_name? {value : Value} {name : Str} (hvalue : Config.Readable value)
    (h : value.name? = some name) : name.PairFree := by
  unfold Value.name? at h
  split at h
  · obtain rfl := Option.some.inj h
    exact Str.pairFree_nil
  · cases value with
    | scalar value =>
        cases value with
        | string text =>
            obtain rfl := Option.some.inj h
            exact allReadable_string.mp hvalue
        | null | bool | number => cases h
    | nan | array | object => cases h

theorem readable_ofEntries (hentries : ∀ entry ∈ entries, Config.ReadableEntry entry)
    (h : ofEntries entries = .ok options) : options.Readable := by
  unfold ofEntries at h
  split at h
  · cases h
  · obtain ⟨rootName, hname, h⟩ := bind_eq_ok.mp h
    obtain ⟨_, -, h⟩ := bind_eq_ok.mp h
    obtain rfl := Except.ok.inj h
    constructor
    · rcases option_eq_ok hname with rfl | ⟨entry, hentry, hread⟩
      · exact Str.pairFree_nil
      · exact pairFree_name? (hentries entry hentry).2 hread
    · cases hversion : entries.lookup ("major_version" : Str) with
      | none => exact readable_default.majorVersion
      | some version => exact (hentries _ (mem_of_lookup hversion)).2

end Options

namespace Cli.Command

variable {command : Command} {workspace : Workspace} {options : Options}

theorem readable_readConfig {path : String} (h : readConfig workspace path = .ok options) :
    options.Readable := by
  obtain ⟨text, -, h⟩ := bind_eq_ok.mp h
  obtain ⟨value, hvalue, h⟩ := bind_eq_ok.mp h
  have hreadable := Config.readable_of_read (mapError_eq_ok.mp hvalue)
  rw [mapError_eq_ok] at h
  cases value with
  | object entries => exact Options.readable_ofEntries (allReadable_object.mp hreadable) h
  | scalar | nan | array => cases h

/-- The name given with the command is a text, and the other options are those of the configuration
or as by default. -/
theorem readable_options (h : command.options workspace = .ok options) : options.Readable := by
  have hnamed {name : String} {found : Options} (hfound : found.Readable) :
      Options.Readable { found with rootName := name } :=
    ⟨Str.pairFree_ofString name, hfound.majorVersion⟩
  unfold Command.options at h
  cases hconfig : command.config with
  | none =>
      simp only [hconfig, pure_bind] at h
      split at h
      · obtain rfl := Except.ok.inj h
        exact hnamed Options.readable_default
      · obtain rfl := Except.ok.inj h
        exact Options.readable_default
  | some path =>
      simp only [hconfig] at h
      obtain ⟨configured, hconfigured, h⟩ := bind_eq_ok.mp h
      have hreadable := readable_readConfig hconfigured
      split at h
      · obtain rfl := Except.ok.inj h
        exact hnamed hreadable
      · obtain rfl := Except.ok.inj h
        exact hreadable

end Cli.Command

end Schemata
