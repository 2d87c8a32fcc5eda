import Schemata.Proofs.BareCycles

/-!
# Rounds

A conversion that comes to a bare cycle from outside goes once around it. It is stopped by
the first reference from the schema before the one that it came to, as the items of arrays
are converted untested. Which reference that is depends on where the cycle is entered, and
not on what was converted before.
-/

namespace Schemata.Analysis

open Schema Source

/-- A round from `base` is closed by the first reference from the schema before it. -/
def Closes (setting : Setting) (base closing : View) : Prop :=
  (∃ target, RefersTo setting closing target) ∧ ∃ last, Walks setting base last ∧
    Passes setting last base ∧ Relation.ReflTransGen ListsItem last closing

/-- The reference that closes a round from a schema is recorded. -/
def Rounded (setting : Setting) (context : Context) (base : View) : Prop :=
  ∀ closing, Closes setting base closing → Recorded setting context closing

/-- No schema that references and arrays lead to holds a definition. -/
def Bare (setting : Setting) (base : View) : Prop :=
  ∀ view definition, Walks setting base view → ¬ Defines setting view definition

/-- None of the bare cycles on the descents from a schema holds a definition. -/
def CyclesBare (setting : Setting) (entry : View) : Prop :=
  ∀ view definition, Descends setting entry view → OnBareCycle setting view →
    ¬ Defines setting view definition

/-- A conversion comes to a schema, and not along a bare cycle. -/
def Entered (setting : Setting) (entry base : View) : Prop :=
  base = entry ∨ ∃ view, Descends setting entry view ∧ CallsFor setting view base ∧
    ¬ Walks setting base view

/-- A reference closes a round from where a bare cycle is entered. -/
def ClosesCycle (setting : Setting) (entry view : View) : Prop :=
  ∃ base, Entered setting entry base ∧ Closes setting base view

/-- A step that does not lead back to where a round began. -/
def Advances (setting : Setting) (base view next : View) : Prop :=
  Passes setting view next ∧ next ≠ base

/-- A round from `base` has come to `view`, and the chain holds that part of the cycle that
it has gone through. -/
structure Along (setting : Setting) (base view : View) (chain : List Pointer) : Prop where
  begins : base.pointer ∈ chain
  walk : Relation.ReflTransGen (Advances setting base) base view
  only : ∀ other, Walks setting base other → other.pointer ∈ chain →
    Relation.ReflTransGen (Advances setting base) other view
  closed : ∀ other next, Walks setting base other → other.pointer ∈ chain →
    Passes setting other next → other = view ∨ next.pointer ∈ chain

/-- A round from `base` is over but for its last reference, and the chain holds all of the
cycle. -/
structure Spent (setting : Setting) (base view : View) (chain : List Pointer) : Prop where
  last : ∃ last, Walks setting base last ∧ Passes setting last base ∧
    Relation.ReflTransGen ListsItem last view
  full : ∀ other, Walks setting base other → other.pointer ∈ chain

variable {setting : Setting} {entry base view next other first last : View}
  {chain : List Pointer} {before after : Context}

theorem Rounded.grows (h : Rounded setting before base) (hgrows : before.Grows after) :
    Rounded setting after base :=
  fun closing hcloses => (h closing hcloses).grows hgrows

/-! ### Walks around a cycle -/

theorem Advances.walks (h : Relation.ReflTransGen (Advances setting base) view other) :
    Walks setting view other := by
  have hsteps : Advances setting base ≤ Passes setting := fun _ _ hstep => hstep.1
  exact Relation.ReflTransGen.mono hsteps _ _ h

/-- A walk from `base` need not come back to it on the way. -/
theorem Walks.advances (h : Walks setting base view) :
    Relation.ReflTransGen (Advances setting base) base view := by
  induction h with
  | refl => exact .refl
  | @tail _ next _ hstep ih =>
      by_cases heq : next = base
      · rw [heq]
      · exact ih.tail ⟨hstep, heq⟩

/-- If a walk from `first` to `last` does not come to `base`, and a step leads from `last`
back to `first`, then the walk goes through everything that steps lead to from `first`. -/
theorem advances_of_cycle (harc : Relation.ReflTransGen (Advances setting base) first last)
    (hback : Passes setting last first) (hview : Walks setting first view) :
    Relation.ReflTransGen (Advances setting base) view last ∧ (view = first ∨ view ≠ base) := by
  induction hview with
  | refl => exact ⟨harc, .inl rfl⟩
  | tail _ hstep ih =>
      rcases ih.1.cases_head with rfl | ⟨middle, hmiddle, hrest⟩
      · obtain rfl := hstep.unique hback
        exact ⟨harc, .inl rfl⟩
      · obtain rfl := hstep.unique hmiddle.1
        exact ⟨hrest, .inr hmiddle.2⟩

/-- Only one schema on a cycle leads to a given one. -/
theorem Walks.last_unique (hlast : Walks setting base last) (hback : Passes setting last base)
    (hother : Walks setting base other) (hbackOther : Passes setting other base) :
    other = last := by
  obtain ⟨hwalk, -⟩ := advances_of_cycle hlast.advances hback hother
  rcases hwalk.cases_head with rfl | ⟨middle, hmiddle, -⟩
  · rfl
  · exact absurd (hmiddle.1.unique hbackOther) hmiddle.2

theorem ListsItem.walks (h : Relation.ReflTransGen ListsItem view other) :
    Walks setting view other := by
  have hsteps : ListsItem ≤ Passes setting := fun _ _ hitem => .inr hitem
  exact Relation.ReflTransGen.mono hsteps _ _ h

/-- Arrays lead to one reference at most. -/
theorem ListsItem.reference_unique {target otherTarget : View}
    (h : Relation.ReflTransGen ListsItem last view) (hrefers : RefersTo setting view target)
    (hother : Relation.ReflTransGen ListsItem last other)
    (hotherRefers : RefersTo setting other otherTarget) : view = other := by
  have hunique : Relator.RightUnique ListsItem := fun _ _ _ => ListsItem.unique
  have hstops : ∀ {view target next : View}, RefersTo setting view target →
      ¬ ListsItem view next := fun hrefers hitem =>
    absurd (hitem.1.symm.trans hrefers.conversionShape) nofun
  rcases Relation.ReflTransGen.total_of_right_unique hunique h hother with hwalk | hwalk
  · rcases hwalk.cases_head with rfl | ⟨_, hitem, -⟩
    · rfl
    · exact absurd hitem (hstops hrefers)
  · rcases hwalk.cases_head with rfl | ⟨_, hitem, -⟩
    · rfl
    · exact absurd hitem (hstops hotherRefers)

theorem Closes.unique (h : Closes setting base view) (hother : Closes setting base other) :
    view = other := by
  obtain ⟨⟨target, hrefers⟩, last, hlast, hback, hitems⟩ := h
  obtain ⟨⟨otherTarget, hotherRefers⟩, otherLast, hotherLast, hotherBack, hotherItems⟩ := hother
  obtain rfl := hlast.last_unique hback hotherLast hotherBack
  exact ListsItem.reference_unique hitems hrefers hotherItems hotherRefers

theorem Closes.onBareCycle (h : Closes setting base view) : OnBareCycle setting base := by
  obtain ⟨-, last, hlast, hback, -⟩ := h
  rcases hlast.cases_head with rfl | ⟨next, hnext, hrest⟩
  · exact ⟨_, hback, .refl⟩
  · exact ⟨next, hnext, hrest.tail hback⟩

/-! ### Once around -/

/-- A round from `base` that has come to `view`, with the chain at that time. -/
def Round (setting : Setting) (base view : View) (chain : List Pointer) : Prop :=
  Along setting base view chain ∨ Spent setting base view chain

theorem Round.walks (h : Round setting base view chain) : Walks setting base view := by
  rcases h with halong | hspent
  · exact Advances.walks halong.walk
  · obtain ⟨last, hlast, -, hitems⟩ := hspent.last
    exact hlast.trans (ListsItem.walks hitems)

namespace Along

/-- When the round is back where it began, the whole cycle is on the chain. -/
theorem full (h : Along setting base view chain) (hback : Passes setting view base)
    (hother : Walks setting base other) : other.pointer ∈ chain := by
  induction hother with
  | refl => exact h.begins
  | tail hwalk hstep ih =>
      rcases h.closed _ _ hwalk ih hstep with rfl | hmem
      · obtain rfl := hstep.unique hback
        exact h.begins
      · exact hmem

/-- A round is first back on its own way where it began. -/
theorem eq_base (h : Along setting base view chain) (hcycle : OnBareCycle setting base)
    (hnext : Passes setting view next) (hmem : next.pointer ∈ chain) : next = base := by
  have hwalk : Walks setting base next := (Advances.walks h.walk).tail hnext
  -- A walk that comes back to its own middle never comes to where it began.
  rcases (advances_of_cycle (h.only next hwalk hmem) hnext (hcycle.back hwalk)).2 with heq | hne
  · exact heq.symm
  · exact absurd rfl hne

end Along

/-- A reference to a schema on the chain closes the round. -/
theorem Round.closes (h : Round setting base view chain) (hcycle : OnBareCycle setting base)
    (hrefers : RefersTo setting view next) (hmem : next.pointer ∈ chain) :
    Closes setting base view := by
  refine ⟨⟨next, hrefers⟩, ?_⟩
  rcases h with halong | hspent
  · obtain rfl := halong.eq_base hcycle (.inl hrefers) hmem
    exact ⟨view, Advances.walks halong.walk, .inl hrefers, .refl⟩
  · exact hspent.last

section Steps

variable (hdistinct : DistinctKeys setting.document) (hbase : Placed setting.document base)

include hdistinct hbase

theorem Along.start (hfree : ∀ other, Walks setting base other → other.pointer ∉ chain) :
    Along setting base base (base.pointer :: chain) := by
  have heq : ∀ other, Walks setting base other → other.pointer ∈ base.pointer :: chain →
      other = base := by
    intro other hother hmem
    rcases List.mem_cons.mp hmem with heq | hchain
    · exact (hother.placed hdistinct hbase).eq_of_pointer hbase heq
    · exact absurd hchain (hfree other hother)
  refine ⟨List.mem_cons_self, .refl, fun other hother hmem => ?_, fun other _ hother hmem _ => ?_⟩
  · rw [heq other hother hmem]
  · exact .inl (heq other hother hmem)

theorem Along.step (h : Along setting base view chain) (hnext : Passes setting view next)
    (hne : next ≠ base) : Along setting base next (next.pointer :: chain) := by
  have hwalk : Walks setting base next := (Advances.walks h.walk).tail hnext
  have heq : ∀ other, Walks setting base other → other.pointer = next.pointer → other = next :=
    fun other hother heq =>
      (hother.placed hdistinct hbase).eq_of_pointer (hwalk.placed hdistinct hbase) heq
  refine ⟨List.mem_cons_of_mem _ h.begins, h.walk.tail ⟨hnext, hne⟩, ?_, ?_⟩
  · intro other hother hmem
    rcases List.mem_cons.mp hmem with hpointer | hchain
    · rw [heq other hother hpointer]
    · exact (h.only other hother hchain).tail ⟨hnext, hne⟩
  · intro other following hother hmem hfollowing
    rcases List.mem_cons.mp hmem with hpointer | hchain
    · exact .inl (heq other hother hpointer)
    · refine .inr ?_
      rcases h.closed other following hother hchain hfollowing with rfl | hclosed
      · obtain rfl := hfollowing.unique hnext
        exact List.mem_cons_self
      · exact List.mem_cons_of_mem _ hclosed

/-- Rounds go on until a reference leads to a schema on the chain. -/
theorem Round.step (h : Round setting base view chain) (hcycle : OnBareCycle setting base)
    (hnext : Passes setting view next)
    (hfree : RefersTo setting view next → next.pointer ∈ chain → Named next) :
    Round setting base next (next.pointer :: chain) := by
  have hunnamed : Unnamed next := (hcycle.walks (h.walks.tail hnext)).unnamed
  -- A reference to the chain would have been stopped, so that only an array leads there.
  have hitem : next.pointer ∈ chain → ListsItem view next := fun hmem =>
    hnext.resolve_left fun hrefers => hunnamed.not_named (hfree hrefers hmem)
  rcases h with halong | hspent
  · by_cases heq : next = base
    · subst heq
      have hlast : Walks setting next view := Advances.walks halong.walk
      refine .inr ⟨⟨view, hlast, hnext, .single (hitem halong.begins)⟩, fun other hother => ?_⟩
      exact List.mem_cons_of_mem _ (halong.full hnext hother)
    · exact .inl (halong.step hdistinct hbase hnext heq)
  · obtain ⟨last, hlast, hback, hitems⟩ := hspent.last
    have hmem := hspent.full next ((Round.walks (.inr hspent)).tail hnext)
    refine .inr ⟨⟨last, hlast, hback, hitems.tail (hitem hmem)⟩, fun other hother => ?_⟩
    exact List.mem_cons_of_mem _ (hspent.full other hother)

/-- A conversion that returns records the end of the round that it is on. -/
theorem convertWithin_round (hcycle : OnBareCycle setting base) {depth : Nat}
    {loc : Option LocationCode} {converted : Converted}
    (hreturns : (convertWithin setting depth view loc).Returns before converted after)
    (h : Round setting base view (view.pointer :: before.chain)) :
    ∃ closing, Closes setting base closing ∧ Recorded setting after closing := by
  induction depth generalizing view loc before converted after with
  | zero => exact absurd hreturns nofun
  | succ depth ih =>
      -- The definitions of the schema leave the chain as it was, and with it the round.
      obtain ⟨start, stop, hstart, -, rfl, hyields⟩ :=
        (gives_step (convertWithin_continues setting depth)).of_returns hreturns
      have hchain : (start.enter view.pointer).chain = view.pointer :: before.chain :=
        congrArg (view.pointer :: ·) hstart.chain
      obtain ⟨next, hnext, -⟩ := hcycle.walks h.walks
      have hstopped : ∃ closing, Closes setting base closing ∧ Recorded setting stop closing := by
        rcases hyields.passes hnext with ⟨_, _, hmade, hfree⟩ | ⟨hrefers, hmem, hrecorded⟩
        · rw [hchain] at hfree
          obtain ⟨first, last, hfirst, hcalled, hlater⟩ := hmade
          have hround := h.step hdistinct hbase hcycle hnext hfree
          rw [← hchain, ← hfirst.chain] at hround
          obtain ⟨closing, hcloses, hrecorded⟩ := ih hcalled hround
          exact ⟨closing, hcloses, hrecorded.grows hlater⟩
        · rw [hchain] at hmem
          exact ⟨view, h.closes hcycle hrefers hmem, hrecorded⟩
      exact hstopped

end Steps

/-- Conversions that come to a bare cycle from outside go once around it. -/
def GoesRound (setting : Setting) (convert : Converter) : Prop :=
  ∀ base loc before converted after, (convert base loc).Returns before converted after →
    Placed setting.document base → (∀ other, Walks setting base other →
      other.pointer ∉ before.chain) → Rounded setting after base

theorem convertWithin_goesRound (hdistinct : DistinctKeys setting.document) (depth : Nat) :
    GoesRound setting (convertWithin setting depth) := by
  intro base loc before converted after hreturns hbase hfree closing hcloses
  have hround : Round setting base base (base.pointer :: before.chain) :=
    .inl (.start hdistinct hbase hfree)
  obtain ⟨other, hother, hrecorded⟩ :=
    convertWithin_round hdistinct hbase hcloses.onBareCycle hreturns hround
  rw [hcloses.unique hother]
  exact hrecorded

/-! ### Ways into a cycle -/

theorem Entered.descends (h : Entered setting entry base) : Descends setting entry base := by
  rcases h with rfl | ⟨view, hview, hcall, -⟩
  · exact .refl
  · exact hview.tail hcall

theorem CyclesBare.bare (h : CyclesBare setting entry) (hbase : Descends setting entry base)
    (hcycle : OnBareCycle setting base) : Bare setting base := by
  intro view definition hview
  have hbelow : Descends setting entry view := by
    induction hview with
    | refl => exact hbase
    | tail _ hstep ih => exact ih.tail (.own hstep.dependsOn)
  exact h view definition hbelow (hcycle.walks hview)

/-- Descents do not leave a bare cycle without definitions. -/
theorem Bare.walks (h : Bare setting base) (hcycle : OnBareCycle setting base)
    (hview : Descends setting base view) : Walks setting base view := by
  induction hview with
  | refl => exact .refl
  | tail _ hcall ih =>
      cases hcall with
      | own hother => exact ih.tail (hother.of_unnamed (hcycle.walks ih).unnamed)
      | definition hdefinition => exact absurd hdefinition (h _ _ ih)

section Arrivals

variable (hdistinct : DistinctKeys setting.document) (hentry : Placed setting.document entry)

include hdistinct hentry

/-- Nothing of a bare cycle is on the chain when a conversion comes to it from outside. -/
theorem Arrives.not_mem (h : Arrives setting entry view chain) (hcall : CallsFor setting view base)
    (hbare : Bare setting base) (hcycle : OnBareCycle setting base)
    (houtside : ¬ Walks setting base view) (hother : Walks setting base other) :
    other.pointer ∉ view.pointer :: chain := by
  intro hmem
  obtain ⟨outer, houter, heq, hdescends⟩ := h.outer hmem
  have hbelow : Descends setting entry base := h.descends.tail hcall
  have hbase := hbelow.placed hdistinct hentry
  obtain rfl := (houter.placed hdistinct hentry).eq_of_pointer (hother.placed hdistinct hbase) heq
  -- The descent from there to the caller would have to keep to the cycle.
  have hbareOther : Bare setting outer := fun view definition hview =>
    hbare view definition (hother.trans hview)
  exact houtside (hother.trans (hbareOther.walks (hcycle.walks hother) hdescends))

theorem Arrives.rounded {convert : Converter} {loc : Option LocationCode} {converted : Converted}
    (hrounds : GoesRound setting convert) (h : Arrives setting entry view chain)
    (hcall : CallsFor setting view base) (houtside : ¬ Walks setting base view)
    (hreturns : (convert base loc).Returns before converted after)
    (hchain : before.chain ⊆ view.pointer :: chain) (hbare : Bare setting base) :
    Rounded setting after base := by
  intro closing hcloses
  have hbelow : Descends setting entry base := h.descends.tail hcall
  refine hrounds _ _ _ _ _ hreturns (hbelow.placed hdistinct hentry) ?_ closing hcloses
  intro other hother hmem
  exact h.not_mem hdistinct hentry hcall hbare hcloses.onBareCycle houtside hother (hchain hmem)

/-- On a bare cycle, a conversion is on a round from where it has entered. -/
theorem Arrives.round (hbare : CyclesBare setting entry) (h : Arrives setting entry view chain)
    (hcycle : OnBareCycle setting view) :
    ∃ base, Entered setting entry base ∧ OnBareCycle setting base ∧
      Round setting base view (view.pointer :: chain) := by
  induction h with
  | start =>
      refine ⟨entry, .inl rfl, hcycle, .inl ?_⟩
      exact .start hdistinct hentry fun _ _ => List.not_mem_nil
  | @own view other chain hview hother hfree ih =>
      have hbelow : Descends setting entry other := hview.descends.tail (.own hother)
      -- The call goes on along the cycle of the schema, or it enters another one.
      by_cases hinside : Walks setting other view
      · have hviewCycle := hcycle.walks hinside
        obtain ⟨base, hentered, hbaseCycle, hround⟩ := ih hviewCycle
        have hnext : Passes setting view other := hother.of_unnamed hviewCycle.unnamed
        have hbase := hentered.descends.placed hdistinct hentry
        exact ⟨base, hentered, hbaseCycle, hround.step hdistinct hbase hbaseCycle hnext hfree⟩
      · refine ⟨other, .inr ⟨view, hview.descends, .own hother, hinside⟩, hcycle, .inl ?_⟩
        refine .start hdistinct (hbelow.placed hdistinct hentry) fun found hfound => ?_
        exact hview.not_mem hdistinct hentry (.own hother) (hbare.bare hbelow hcycle) hcycle
          hinside hfound
  | @definition view other chain hview hdefinition ih =>
      have hbelow : Descends setting entry other := hview.descends.tail (.definition hdefinition)
      have houtside : ¬ Walks setting other view := fun hinside =>
        hbare view other hview.descends (hcycle.walks hinside) hdefinition
      refine ⟨other, .inr ⟨view, hview.descends, .definition hdefinition, houtside⟩, hcycle,
        .inl ?_⟩
      refine .start hdistinct (hbelow.placed hdistinct hentry) fun found hfound hmem => ?_
      exact hview.not_mem hdistinct hentry (.definition hdefinition) (hbare.bare hbelow hcycle)
        hcycle houtside hfound (List.mem_cons_of_mem _ hmem)

end Arrivals

end Schemata.Analysis
