import Schemata.Proofs.Parallel
import Schemata.Proofs.Termination

/-!
# What a conversion makes of the state

A relation between the state before an action and the one after it. It may ask for less
where the action failed. If it holds of every entry that is made, then it holds of a whole
conversion: in between entries stay as they are, and steps follow one another.
-/

namespace Schemata.Analysis

open Schema Source

/-- How the state before an action is related to the one after it, by whether the action
returned. -/
abbrev Change := Bool → Context → Context → Prop

/-- Two states have the same entries. -/
structure Context.SameEntries (before after : Context) : Prop where
  types : after.typeRegistry = before.typeRegistry
  enums : after.enumRegistry = before.enumRegistry
  unions : after.unionRegistry = before.unionRegistry

/-- A change that may be made step by step, with nothing to do where no entry changes. -/
structure Change.Gradual (change : Change) : Prop where
  still : ∀ {returned before after}, before.Grows after → before.SameEntries after →
    change returned before after
  trans : ∀ {returned before middle after}, change true before middle →
    change returned middle after → change returned before after
  leave : ∀ {returned before after pointer}, change returned (before.enter pointer) after →
    change returned before after.leave

/-- Wherever the action leads, the state has changed in the given way. -/
def Action.Makes {α : Type} (change : Change) (action : Action α) : Prop :=
  ∀ before, action.Ensures before (fun _ after => change true before after)
    fun _ after => change false before after

namespace Action.Makes

variable {setting : Setting} {change : Change} {α β : Type} (hchange : change.Gradual)

include hchange

theorem pure (value : α) : Makes change (Pure.pure value) :=
  fun before => hchange.still (.refl before) ⟨rfl, rfl, rfl⟩

theorem throw (failure : Failure) : Makes change (MonadExcept.throw failure : Action α) :=
  fun before => hchange.still (.refl before) ⟨rfl, rfl, rfl⟩

theorem lift (result : Except Failure α) : Makes change (liftM result : Action α) := by
  cases result with
  | ok | error => exact fun before => hchange.still (.refl before) ⟨rfl, rfl, rfl⟩

theorem update {update : Context → Context}
    (hgrows : ∀ before : Context, before.Grows (update before))
    (hsame : ∀ before : Context, before.SameEntries (update before)) :
    Makes change (modify update) :=
  fun before => hchange.still (hgrows before) (hsame before)

theorem note (event : Event) : Makes change (Action.note event) :=
  update hchange (fun _ => (Context.Extends.note _ event).grows) fun _ => ⟨rfl, rfl, rfl⟩

theorem report (problem : Problem) (range : Option LocationCode) :
    Makes change (Action.report setting problem range) := by
  refine update hchange (fun _ => (Context.Extends.record _ _).grows) fun before => ?_
  unfold Context.record
  split
  all_goals exact ⟨rfl, rfl, rfl⟩

theorem bind {action : Action β} {next : β → Action α} (haction : Makes change action)
    (hnext : ∀ value, action.MayReturn value → Makes change (next value)) :
    Makes change (action >>= next) := by
  intro before
  rw [Action.ensures_bind]
  refine ((haction before).and (action.ensures_returns before)).imp ?_ fun _ _ h => h.1
  intro value middle hmiddle
  refine (hnext value ⟨before, middle, hmiddle.2⟩ middle).imp ?_ ?_
  · exact fun _ _ hafter => hchange.trans hmiddle.1 hafter
  · exact fun _ _ hafter => hchange.trans hmiddle.1 hafter

omit hchange in
theorem ask {next : Context → Action α} (hnext : ∀ state, Makes change (next state)) :
    Makes change (get >>= next) :=
  fun before => hnext before before

theorem unlessVisited {skipped : Bool} {pointer : Pointer} {visit : Action β} {rest : Action α}
    (hvisit : skipped = false → Makes change visit) (hrest : Makes change rest) :
    Makes change (Action.unlessVisited skipped pointer visit rest) := by
  refine ask fun state => ?_
  split
  · exact hrest
  next hnew =>
    have hwanted : skipped = false := by simp_all
    have hmark : Makes change (modify (·.visit pointer)) :=
      update hchange (fun _ => (Context.Extends.visit _ pointer).grows) fun _ => ⟨rfl, rfl, rfl⟩
    exact bind hchange hmark fun _ _ => bind hchange (hvisit hwanted) fun _ _ => hrest

theorem within (pointer : Pointer) {action : Action α} (h : Makes change action) :
    Makes change (Action.within pointer action) := by
  intro before
  rw [Action.ensures_within]
  exact (h (before.enter pointer)).imp (fun _ _ hafter => hchange.leave hafter) fun _ _ hafter =>
    hchange.leave hafter

theorem claim (name : Label) (view : View) :
    Makes change (Action.claim setting name view) := by
  refine ask fun state => ?_
  split
  · exact pure hchange _
  · split
    · exact bind hchange (report hchange _ _) fun _ _ => pure hchange _
    · exact pure hchange _

/-- A name is declared when no entry has it. -/
theorem named {view : View} {declare : Label → Action Unit}
    (h : ∀ name before, before.lookup name.value = none →
      (declare name).Ensures before (fun _ after => change true before after)
        fun _ after => change false before after) :
    Makes change (Action.named setting view declare) := by
  refine bind hchange (lift hchange _) fun found _ => ?_
  cases found with
  | none => exact pure hchange _
  | some name =>
      intro before
      have hclaim : Gives before (Action.claim setting name view) _ := gives_claim name
      rw [Action.ensures_bind]
      refine ((claim hchange name view before).and hclaim).imp ?_ fun _ _ h => h.1
      rintro claimed middle ⟨hmiddle, -, hfree⟩
      cases claimed with
      | false => exact hmiddle
      | true =>
          obtain ⟨hnew, rfl⟩ := hfree
          rw [if_pos rfl, Action.ensures_bind]
          exact (h name middle hnew).imp (fun _ _ hafter => hafter) fun _ _ hafter => hafter

end Action.Makes

section Runs

variable {setting : Setting} {met : View → Prop} {change : Change} (hchange : change.Gradual)

/-- The converter may be used for entries: whatever is made of their parts, they change the
state in the given way. -/
structure Change.Entries (setting : Setting) (met : View → Prop) (change : Change)
    (convert : Converter) : Prop where
  type : ∀ {origin shape view loc}, met view → view.conversionShape = .ok shape →
    shape = .object ∨ shape = .intersection →
    Action.Makes change (typeBody setting convert view shape) →
    Action.Makes change (typeEntry setting origin (typeBody setting convert view shape) view loc)
  enumeration : ∀ {members view loc}, met view →
    Action.Makes change (stringEnum setting view members loc)
  union : ∀ {view loc}, met view → view.conversionShape = .ok .union →
    Action.Makes change (unionBody setting convert view) →
    Action.Makes change (union setting convert view loc)

include hchange

/-- If conversions of schemas that are met change the state in a way, so does whatever is
made of them. -/
theorem Parallel.makes {flags : Flags} {convert other : Converter}
    (hentries : change.Entries setting met convert)
    (hconvert : ∀ view loc, met view → Action.Makes change (convert view loc))
    {α : Type} {action twin : Action α}
    (h : Parallel setting flags convert other met action twin) : Action.Makes change action := by
  induction h with
  | pure value => exact .pure hchange value
  | lift result => exact .lift hchange result
  | bind _ _ ihAction ihNext => exact .bind hchange ihAction ihNext
  | ask _ _ ih => exact .ask ih
  | note event => exact .note hchange event
  | unlessVisited hview _ ih =>
      exact .unlessVisited hchange (fun hwanted => hconvert _ _ (hview hwanted)) ih
  | within pointer _ ih => exact .within hchange pointer ih
  | call hview => exact hconvert _ _ hview
  | report _ => exact .report hchange _ _
  | offer _ _ ih =>
      split
      · exact .bind hchange (.report hchange _ _) fun _ _ => ih
      · exact ih
  | refuse refusal _ value =>
      unfold Refusal.act
      split
      · exact .bind hchange (.note hchange _) fun _ _ => .throw hchange _
      · exact .bind hchange (.report hchange _ _) fun _ _ => .pure hchange _
  | typeEntry hview hshape hkind _ ih => exact hentries.type hview hshape hkind ih
  | enumEntry hview => exact hentries.enumeration hview
  | unionEntry hview hshape _ ih => exact hentries.union hview hshape ih

/-- A whole conversion changes the state as its entries do. -/
theorem convertWithin_makes
    (hclosed : ∀ view called, met view → CallsFor setting view called → met called)
    (hentries : ∀ convert : Converter, Continues convert →
      convert.Agrees (Analysis.convert setting) → change.Entries setting met convert)
    {depth : Nat} (hdepth : depth ≤ setting.depth) :
    ∀ view loc, met view → Action.Makes change (convertWithin setting depth view loc) := by
  induction depth with
  | zero => exact fun _ _ _ => .throw hchange .tooDeep
  | succ depth ih =>
      intro view loc hview
      have hagrees : (convertWithin setting depth).Agrees (convert setting) := by
        obtain ⟨extra, hextra⟩ := Nat.exists_eq_add_of_le (Nat.le_of_succ_le hdepth)
        rw [convert, hextra]
        exact agrees_convertWithin_add setting depth extra
      have hstep : Parallel setting setting.flags (convertWithin setting depth)
          (convertWithin setting depth) met (convertWithin setting (depth + 1) view loc) _ :=
        parallel_step hclosed hview
      exact hstep.makes hchange (hentries _ (convertWithin_continues setting depth) hagrees)
        (ih (Nat.le_of_succ_le hdepth))

end Runs

end Schemata.Analysis
