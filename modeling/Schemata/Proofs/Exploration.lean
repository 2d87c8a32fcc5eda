import Schemata.Proofs.Rounds

/-!
# Conversions miss nothing

A conversion that returns has come to every schema on the descents from where it began.
Whatever it cut short was being converted at the time, or had been before: definitions
are visited once, an entry is made once, and a circular reference ends in a schema that
is still being converted.
-/

namespace Schemata.Analysis

open Schema Source

namespace Context

variable {before after context : Context} {pointer : Pointer}

/-- The conversion of the schema at a pointer was begun. -/
def Begun (context : Context) (pointer : Pointer) : Prop :=
  ∃ shape, .parsing pointer shape ∈ context.log

theorem Grows.begun (h : before.Grows after) (hbegun : before.Begun pointer) :
    after.Begun pointer := by
  obtain ⟨shape, hmem⟩ := hbegun
  exact ⟨shape, h.log.subset hmem⟩

theorem begun_note_iff {event : Event} (hevent : ∀ pointer shape, event ≠ .parsing pointer shape) :
    (context.note event).Begun pointer ↔ context.Begun pointer := by
  constructor
  · rintro ⟨shape, hmem⟩
    rcases List.mem_cons.mp hmem with rfl | hold
    · exact absurd rfl (hevent pointer shape)
    · exact ⟨shape, hold⟩
  · exact fun ⟨shape, hmem⟩ => ⟨shape, List.mem_cons_of_mem _ hmem⟩

theorem begun_parsing_iff {other : Pointer} {shape : Shape} :
    (context.note (.parsing other shape)).Begun pointer ↔
      pointer = other ∨ context.Begun pointer := by
  constructor
  · rintro ⟨found, hmem⟩
    rcases List.mem_cons.mp hmem with heq | hold
    · exact .inl (Event.parsing.inj heq).1
    · exact .inr ⟨found, hold⟩
  · rintro (rfl | ⟨found, hmem⟩)
    · exact ⟨shape, List.mem_cons_self⟩
    · exact ⟨found, List.mem_cons_of_mem _ hmem⟩

theorem visited_record (context : Context) (violation : Violation) :
    (context.record violation).visited = context.visited := by
  unfold record
  split <;> rfl

theorem hasEntry_record_iff {violation : Violation} {kind : EntryKind} {name : Str} :
    (context.record violation).HasEntry kind name pointer ↔ context.HasEntry kind name pointer := by
  unfold record
  split
  · exact Iff.rfl
  · cases kind <;> exact Iff.rfl

theorem begun_record_iff {violation : Violation} :
    (context.record violation).Begun pointer ↔ context.Begun pointer := by
  unfold record
  split
  · exact Iff.rfl
  · exact begun_note_iff nofun

end Context

/-- A conversion that returns was begun. -/
def Begins (convert : Converter) : Prop :=
  ∀ view loc before converted after, (convert view loc).Returns before converted after →
    after.Begun view.pointer

theorem convertWithin_begins (setting : Setting) (depth : Nat) :
    Begins (convertWithin setting depth) := by
  intro view loc before converted after hreturns
  cases depth with
  | zero => exact absurd hreturns nofun
  | succ depth =>
      have hcontinues := convertWithin_continues setting depth
      have hstep : Gives before (step setting (convertWithin setting depth) view loc)
          fun _ after => after.Begun view.pointer := by
        refine .bind (gives_visitDefinitions hcontinues _) fun _ start _ _ => .within ?_
        refine .bind .lift fun shape middle _ hshape => .bind (.note _) ?_
        rintro _ _ _ rfl
        refine (gives_shaped hcontinues hshape.1).imp fun _ stop hgrows _ _ => ?_
        exact hgrows.begun (Context.begun_parsing_iff.mpr (.inl rfl))
      exact hstep.of_returns hreturns

theorem Made.begun {convert : Converter} (hbegins : Begins convert) {before after : Context}
    {view : View} {loc : Option LocationCode} {converted : Converted}
    (h : Made convert before after view loc converted) : after.Begun view.pointer := by
  obtain ⟨_, _, -, hreturns, hafter⟩ := h
  exact hafter.begun (hbegins _ _ _ _ _ hreturns)

theorem Made.rounded {convert : Converter} {setting : Setting} {entry view base : View}
    {chain : List Pointer} {before after : Context} {loc : Option LocationCode}
    {converted : Converted} (hdistinct : DistinctKeys setting.document)
    (hentry : Placed setting.document entry) (hrounds : GoesRound setting convert)
    (hview : Arrives setting entry view chain) (hcall : CallsFor setting view base)
    (houtside : ¬ Walks setting base view) (hchain : before.chain = view.pointer :: chain)
    (hbare : Bare setting base) (h : Made convert before after base loc converted) :
    Rounded setting after base := by
  obtain ⟨_, _, hfirst, hreturns, hlater⟩ := h
  refine (hview.rounded hdistinct hentry hrounds hcall houtside hreturns ?_ hbare).grows hlater
  rw [hfirst.chain, hchain]
  exact List.Subset.refl _

/-! ### Explored states -/

/-- In a state, the conversion of a schema has done what it is for: it has begun what the
schema depends on, has made an entry of it and has recorded the cycle that it was on. It has
gone around the cycles that it came to. A reference back to one of the pointers that are
held is recorded itself. -/
structure Finished (setting : Setting) (held : List Pointer) (context : Context) (view : View) :
    Prop where
  begun : ∀ other, DependsOn setting view other → context.Begun other.pointer
  registered : ∀ shape kind, view.conversionShape = .ok shape → entryKind? shape = some kind →
    ∃ name, Registers setting view kind name ∧ context.HasEntry kind name view.pointer
  cycle : RecordsCycle setting context view
  rounds : ∀ other, DependsOn setting view other → ¬ Walks setting other view →
    Bare setting other → Rounded setting context other
  recorded : ∀ target, RefersTo setting view target → Unnamed target →
    target.pointer ∈ held → Recorded setting context view

/-- In a state, nothing is missing on the descents from a schema. What was begun is being
converted or is finished, and entries were made of schemas on the descents only. -/
structure Explored (setting : Setting) (entry : View) (held : List Pointer) (context : Context) :
    Prop where
  chain : ∀ pointer ∈ context.chain, context.Begun pointer
  entries : ∀ kind name source, context.HasEntry kind name source →
    context.Begun source ∧ ∃ view, Descends setting entry view ∧ view.pointer = source ∧
      Registers setting view kind name
  definitions : ∀ view definition, Descends setting entry view → context.Begun view.pointer →
    Defines setting view definition → definition.pointer ∈ context.visited
  finished : ∀ view, Descends setting entry view → context.Begun view.pointer →
    view.pointer ∈ context.chain ∨ Finished setting held context view

/-- A conversion has come to a schema, and around the cycle that the schema may be on. -/
def CameTo (setting : Setting) (context : Context) (view : View) : Prop :=
  context.Begun view.pointer ∧ (Bare setting view → Rounded setting context view)

/-- The second state is explored, and conversions came to what was visited since the first
one. -/
structure Explores (setting : Setting) (entry : View) (held : List Pointer)
    (before after : Context) : Prop where
  explored : Explored setting entry held after
  visited : ∀ view, Descends setting entry view → view.pointer ∈ after.visited →
    view.pointer ∈ before.visited ∨ CameTo setting after view

variable {setting : Setting} {entry view : View} {held : List Pointer}
  {before middle after : Context}

theorem CameTo.grows (h : CameTo setting before view) (hgrows : before.Grows after) :
    CameTo setting after view :=
  ⟨hgrows.begun h.1, fun hbare => (h.2 hbare).grows hgrows⟩

theorem Finished.grows (h : Finished setting held before view) (hgrows : before.Grows after) :
    Finished setting held after view where
  begun other hother := hgrows.begun (h.begun other hother)
  registered shape kind hshape hkind := by
    obtain ⟨name, hregisters, hentry⟩ := h.registered shape kind hshape hkind
    exact ⟨name, hregisters, hgrows.entries _ _ _ hentry⟩
  cycle := h.cycle.grows hgrows
  rounds other hother houtside hbare := (h.rounds other hother houtside hbare).grows hgrows
  recorded target htarget hunnamed hheld :=
    (h.recorded target htarget hunnamed hheld).grows hgrows

theorem Finished.enter {pointer : Pointer} (h : Finished setting held before view) :
    Finished setting held (before.enter pointer) view :=
  ⟨h.begun, h.registered, h.cycle, h.rounds, h.recorded⟩

theorem Finished.leave (h : Finished setting held before view) :
    Finished setting held before.leave view :=
  ⟨h.begun, h.registered, h.cycle, h.rounds, h.recorded⟩

/-- A schema without an entry has only its target or its items to begin. -/
theorem Finished.of_unnamed (hunnamed : Unnamed view)
    (hbegun : ∀ other, Passes setting view other → after.Begun other.pointer)
    (hcycle : RecordsCycle setting after view)
    (hrounds : ∀ other, Passes setting view other → ¬ Walks setting other view →
      Bare setting other → Rounded setting after other)
    (hrecorded : ∀ target, RefersTo setting view target → Unnamed target →
      target.pointer ∈ held → Recorded setting after view) :
    Finished setting held after view where
  begun other hother := hbegun other (hother.of_unnamed hunnamed)
  registered shape kind hshape hkind := by
    have hnamed : Named view := ⟨shape, hshape, isNamed_iff.mpr ⟨kind, hkind⟩⟩
    exact absurd hnamed hunnamed.not_named
  cycle := hcycle
  rounds other hother := hrounds other (hother.of_unnamed hunnamed)
  recorded := hrecorded

namespace Explores

theorem refl (h : Explored setting entry held before) :
    Explores setting entry held before before :=
  ⟨h, fun _ _ => .inl⟩

theorem trans (hfirst : Explores setting entry held before middle)
    (hsecond : Explores setting entry held middle after) (hgrows : middle.Grows after) :
    Explores setting entry held before after := by
  refine ⟨hsecond.explored, fun view hview hvisited => ?_⟩
  rcases hsecond.visited view hview hvisited with hmiddle | hcame
  · exact (hfirst.visited view hview hmiddle).imp_right fun hcame => hcame.grows hgrows
  · exact .inr hcame

end Explores

/-- A change that begins nothing leaves nothing unexplored, if every entry that it makes
is one of a schema that was begun. -/
theorem Explored.grows (h : Explored setting entry held before) (hgrows : before.Grows after)
    (hvisited : after.visited = before.visited)
    (hbegun : ∀ pointer, after.Begun pointer → before.Begun pointer)
    (hentries : ∀ kind name source, after.HasEntry kind name source →
      before.HasEntry kind name source ∨ before.Begun source ∧
        ∃ view, Descends setting entry view ∧ view.pointer = source ∧
          Registers setting view kind name) : Explores setting entry held before after where
  explored :=
    { chain := fun pointer hmem => hgrows.begun (h.chain pointer (hgrows.chain ▸ hmem))
      entries := fun kind name source hentry =>
        ((hentries kind name source hentry).elim (h.entries kind name source) id).imp_left
          hgrows.begun
      definitions := fun view definition hview hbegan hdefinition => by
        rw [hvisited]
        exact h.definitions view definition hview (hbegun _ hbegan) hdefinition
      finished := fun view hview hbegan => by
        rw [hgrows.chain]
        exact (h.finished view hview (hbegun _ hbegan)).imp_right fun hfinished =>
          hfinished.grows hgrows }
  visited view _ hmem := .inl (hvisited ▸ hmem)

/-- A schema that is being converted may become an entry. -/
theorem Explored.declare {name : Label} {kind : EntryKind} {shape : Shape}
    (h : Explored setting entry held before) (hview : Descends setting entry view)
    (hbegun : before.Begun view.pointer) (hname : Declares setting view before name)
    (hshape : view.conversionShape = .ok shape) (hkind : entryKind? shape = some kind)
    (hgrows : before.Grows after) (hvisited : after.visited = before.visited)
    (hlog : after.log = before.log)
    (hentries : ∀ other key source, after.HasEntry other key source →
      before.HasEntry other key source ∨
        other = kind ∧ key = name.value ∧ source = view.pointer) :
    Explores setting entry held before after := by
  refine h.grows hgrows hvisited ?_ fun other key source hentry => ?_
  · rintro pointer ⟨found, hmem⟩
    exact ⟨found, hlog ▸ hmem⟩
  · refine (hentries other key source hentry).imp_right ?_
    rintro ⟨rfl, rfl, rfl⟩
    exact ⟨hbegun, view, hview, rfl, shape, name, hshape, hkind, hname.1, rfl⟩

theorem Explored.addType {name : Label} {shape : Shape} (loc : Option LocationCode)
    (h : Explored setting entry held before) (hview : Descends setting entry view)
    (hbegun : before.Begun view.pointer) (hname : Declares setting view before name)
    (hshape : view.conversionShape = .ok shape) (hkind : shape = .object ∨ shape = .intersection) :
    Explores setting entry held before
      (before.addType (newType view name loc)) :=
  h.declare hview hbegun hname hshape (entryKind?_of_type hkind)
    (Context.Extends.addType hname.2).grows rfl rfl
    fun _ _ _ => (Context.hasEntry_addType_iff (newType view name loc) hname.2).mp

theorem Explored.addUnion {name : Label} (loc : Option LocationCode)
    (h : Explored setting entry held before) (hview : Descends setting entry view)
    (hbegun : before.Begun view.pointer) (hname : Declares setting view before name)
    (hshape : view.conversionShape = .ok .union) :
    Explores setting entry held before
      (before.addUnion (newUnion view name loc)) :=
  h.declare hview hbegun hname hshape rfl (Context.Extends.addUnion hname.2).grows rfl rfl
    fun _ _ _ => (Context.hasEntry_addUnion_iff (newUnion view name loc) hname.2).mp

theorem Explored.completeType (h : Explored setting entry held before) (name : Str)
    (properties : List Property) (rules : List Rule) :
    Explores setting entry held before (before.completeType name properties rules) :=
  h.grows (.completeType _ _ _ _) rfl (fun _ => id) fun _ _ _ hentry =>
    .inl (Context.hasEntry_completeType_iff.mp hentry)

theorem Explored.completeUnion (h : Explored setting entry held before) (name : Str)
    (kind : UnionKind) (members : List ValueType) (discriminator : Option Label) :
    Explores setting entry held before
      (before.completeUnion name kind members discriminator) :=
  h.grows (.completeUnion _ _ _ _ _) rfl (fun _ => id) fun _ _ _ hentry =>
    .inl (Context.hasEntry_completeUnion_iff.mp hentry)

theorem Explored.visit (h : Explored setting entry held before) (pointer : Pointer) :
    Explored setting entry held (before.visit pointer) where
  chain := h.chain
  entries := h.entries
  definitions view definition hview hbegun hdefinition :=
    List.mem_cons_of_mem _ (h.definitions view definition hview hbegun hdefinition)
  finished view hview hbegun := (h.finished view hview hbegun).imp_right fun hfinished =>
    hfinished.grows (Context.Extends.visit before pointer).grows

/-- A visit to a definition is over when a conversion has come to it. -/
theorem Explores.of_visit {found : View} (hdistinct : DistinctKeys setting.document)
    (hentry : Placed setting.document entry) (hfound : Descends setting entry found)
    (hcame : CameTo setting after found)
    (h : Explores setting entry held (before.visit found.pointer) after) :
    Explores setting entry held before after := by
  refine ⟨h.explored, fun other hother hvisited => ?_⟩
  rcases h.visited other hother hvisited with hmem | hcameOther
  · rcases List.mem_cons.mp hmem with heq | hbefore
    · obtain rfl := hother.eq_of_pointer hdistinct hentry hfound heq
      exact .inr hcame
    · exact .inl hbefore
  · exact .inr hcameOther

/-- If a name is taken, then by the schema itself, as no other one has it. -/
theorem Explored.hasEntry_of_taken {opened : Context} {name : Label} {shape : Shape}
    (hapart : NamesApart setting entry) (h : Explored setting entry held opened)
    (hview : Descends setting entry view) (hshape : view.conversionShape = .ok shape)
    (hnamed : shape.isNamed = true) (hname : setting.naming.infer view = .ok (some name))
    (htaken : opened.lookup name.value ≠ none) :
    ∃ kind name, opened.HasEntry kind name view.pointer := by
  obtain ⟨kind, source, hfound⟩ := Context.lookup_ne_none_iff.mp htaken
  obtain ⟨-, owner, howner, rfl, hregisters⟩ := h.entries kind name.value source hfound
  obtain ⟨own, hown⟩ := isNamed_iff.mp hnamed
  have heq : view.pointer = owner.pointer := hapart view owner own kind name.value hview howner
    ⟨shape, name, hshape, hown, hname, rfl⟩ hregisters
  exact ⟨kind, name.value, heq ▸ hfound⟩

/-! ### Runs -/

/-- Conversions that return leave nothing unexplored. -/
def KeepsExplored (setting : Setting) (entry : View) (held : List Pointer)
    (convert : Converter) : Prop :=
  ∀ view loc before after, (convert view loc).Leads true before after →
    Arrives setting entry view before.chain → held ⊆ before.chain →
    Explored setting entry held before → Explores setting entry held before after

section Runs

variable {convert : Converter} {loc : Option LocationCode} (hcontinues : Continues convert)

include hcontinues

/-- While a schema is being converted, nothing is left unexplored. -/
theorem Course.explores {opened : Option Label} {chain : List Pointer}
    (hkeeps : KeepsExplored setting entry held convert) (hview : Arrives setting entry view chain)
    (hcourse : Course setting convert view loc true opened before after)
    (hchain : before.chain = view.pointer :: chain) (hheld : held ⊆ before.chain)
    (hbegun : before.Begun view.pointer) (h : Explored setting entry held before) :
    Explores setting entry held before after := by
  induction hcourse with
  | done => exact .refl h
  | andThen hfirst hsecond ihFirst ihSecond =>
      have hgrows := (hfirst.extends hcontinues).grows
      have hmiddle := ihFirst hchain hheld hbegun h
      refine hmiddle.trans (ihSecond ?_ ?_ (hgrows.begun hbegun) hmiddle.explored)
        (hsecond.extends hcontinues).grows
      · exact hgrows.chain.trans hchain
      · rw [hgrows.chain]
        exact hheld
  | note hevent =>
      refine h.grows (Context.Extends.note _ _).grows rfl (fun _ => ?_) fun _ _ _ => .inl
      exact (Context.begun_note_iff hevent).mp
  | @report _ context problem range _ =>
      refine h.grows (Context.Extends.record _ _).grows ?_ (fun _ => ?_) fun _ _ _ hentry => ?_
      · exact Context.visited_record _ _
      · exact Context.begun_record_iff.mp
      · exact .inl (Context.hasEntry_record_iff.mp hentry)
  | convert hcall hcalled =>
      exact hkeeps _ _ _ _ hcalled (hview.call hchain hcall) hheld h
  | enumEntry hname hshape =>
      exact h.declare hview.descends hbegun hname hshape rfl
        (Context.Extends.addEnum hname.2).grows rfl rfl
        fun _ _ _ => (Context.hasEntry_addEnum_iff _ hname.2).mp
  | typeOpened hname hshape hkind hcourse ih =>
      have hopened := h.addType loc hview.descends hbegun hname hshape hkind
      exact hopened.trans (ih hchain hheld hbegun hopened.explored)
        (hcourse.extends hcontinues).grows
  | typeEntry hname hshape hkind hstart _ hcourse ihStart ih =>
      have hopened := h.addType loc hview.descends hbegun hname hshape hkind
      have hgrows := (hstart.extends hcontinues).grows
      have hstarted := ihStart hchain hheld hbegun hopened.explored
      have hended := ih (hgrows.chain.trans hchain) (hgrows.chain ▸ hheld) (hgrows.begun hbegun)
        hstarted.explored
      -- The entry is made, its body is read, and then it is filled in.
      have hbody := (hopened.trans hstarted hgrows).trans hended (hcourse.extends hcontinues).grows
      exact hbody.trans (hended.explored.completeType _ _ _) (.completeType _ _ _ _)
  | unionOpened hname hshape hcourse ih =>
      have hopened := h.addUnion loc hview.descends hbegun hname hshape
      exact hopened.trans (ih hchain hheld hbegun hopened.explored)
        (hcourse.extends hcontinues).grows
  | unionEntry hname hshape hstart _ hcourse ihStart ih =>
      have hopened := h.addUnion loc hview.descends hbegun hname hshape
      have hgrows := (hstart.extends hcontinues).grows
      have hstarted := ihStart hchain hheld hbegun hopened.explored
      have hended := ih (hgrows.chain.trans hchain) (hgrows.chain ▸ hheld) (hgrows.begun hbegun)
        hstarted.explored
      have hbody := (hopened.trans hstarted hgrows).trans hended (hcourse.extends hcontinues).grows
      exact hbody.trans (hended.explored.completeUnion _ _ _ _) (.completeUnion _ _ _ _ _)

end Runs

/-! ### Whole schemas -/

section Whole

variable {convert : Converter} {loc : Option LocationCode}
  (hdistinct : DistinctKeys setting.document) (hentry : Placed setting.document entry)

include hdistinct hentry

/-- A schema whose definitions were visited goes onto the chain. -/
theorem Explored.enter {start : Context} (h : Explored setting entry held start)
    (hview : Descends setting entry view)
    (hdefinitions : ∀ definition, Defines setting view definition →
      definition.pointer ∈ start.visited) (shape : Shape) :
    Explored setting entry held
      ((start.enter view.pointer).note (.parsing view.pointer shape)) where
  chain pointer hmem := by
    rw [Context.begun_parsing_iff]
    exact (List.mem_cons.mp hmem).imp_right (h.chain pointer)
  entries kind name source hfound := by
    rw [Context.begun_parsing_iff]
    exact (h.entries kind name source hfound).imp_left .inr
  definitions other definition hother hbegun hdefinition := by
    rcases Context.begun_parsing_iff.mp hbegun with heq | hbefore
    · obtain rfl := hother.eq_of_pointer hdistinct hentry hview heq
      exact hdefinitions definition hdefinition
    · exact h.definitions other definition hother hbefore hdefinition
  finished other hother hbegun := by
    rcases Context.begun_parsing_iff.mp hbegun with heq | hbefore
    · exact .inl (List.mem_cons.mpr (.inl heq))
    · rcases h.finished other hother hbefore with hchain | hfinished
      · exact .inl (List.mem_cons_of_mem _ hchain)
      · exact .inr (hfinished.enter.grows (Context.Extends.note _ _).grows)

/-- A schema leaves the chain when its conversion has done what it is for. -/
theorem Explores.leave {start opened stop : Context}
    (h : Explores setting entry held opened stop) (hview : Descends setting entry view)
    (hchain : opened.chain = view.pointer :: start.chain)
    (hvisited : opened.visited = start.visited) (hgrows : opened.Grows stop)
    (hfinished : view.pointer ∈ start.chain ∨ Finished setting held stop view) :
    Explores setting entry held start stop.leave := by
  have hleft : stop.leave.chain = start.chain := by
    rw [Context.leave, hgrows.chain, hchain]
    rfl
  refine ⟨⟨fun pointer hmem => ?_, h.explored.entries, h.explored.definitions, ?_⟩, ?_⟩
  · apply h.explored.chain
    rw [hgrows.chain, hchain]
    exact List.mem_cons_of_mem _ (hleft ▸ hmem)
  · intro other hother hbegun
    rw [hleft]
    have hstop := h.explored.finished other hother hbegun
    rw [hgrows.chain, hchain] at hstop
    rcases hstop with hmem | hother'
    · rcases List.mem_cons.mp hmem with heq | hstart
      · obtain rfl := hother.eq_of_pointer hdistinct hentry hview heq
        exact hfinished.imp_right Finished.leave
      · exact .inl hstart
    · exact .inr hother'.leave
  · intro other hother hmem
    rw [← hvisited]
    exact h.visited other hother hmem

/-- Definitions are visited from outside of bare cycles, as these hold none. -/
theorem Arrives.cameTo {definition : View} {converted : Converted} (hbegins : Begins convert)
    (hrounds : GoesRound setting convert) (hview : Arrives setting entry view before.chain)
    (hdefinition : Defines setting view definition)
    (hreturns : (convert definition loc).Returns (before.visit definition.pointer) converted
      after) :
    CameTo setting after definition := by
  refine ⟨hbegins _ _ _ _ _ hreturns, fun hbare => ?_⟩
  have houtside : ¬ Walks setting definition view := fun hwalk =>
    hbare view definition hwalk hdefinition
  exact hview.rounded hdistinct hentry hrounds (.definition hdefinition) houtside hreturns
    (List.subset_cons_self _ _) hbare

/-- Visits to definitions leave nothing unexplored. -/
theorem explores_visitDefinitions {entries : List Schema.Entry} (hcontinues : Continues convert)
    (hbegins : Begins convert) (hrounds : GoesRound setting convert)
    (hkeeps : KeepsExplored setting entry held convert)
    (hview : Arrives setting entry view before.chain)
    (hentries : ∀ entry ∈ entries, entry ∈ definitionEntries view) (hheld : held ⊆ before.chain)
    (h : Explored setting entry held before) :
    (visitDefinitions setting convert entries).Ensures before
      (fun _ after => Explores setting entry held before after) fun _ _ => True := by
  induction entries generalizing before with
  | nil => exact .refl h
  | cons found rest ih =>
      have hrest := fun other hother => hentries other (List.mem_cons_of_mem found hother)
      rw [visitDefinitions, Action.ensures_bind, Action.ensures_get]
      split
      · exact ih hview hrest hheld h
      next hnew =>
        simp only [Bool.or_eq_true, decide_eq_true_eq, not_or] at hnew
        have hdefinition : Defines setting view found.view :=
          ⟨found, hentries found List.mem_cons_self, hnew.1, rfl⟩
        rw [Action.ensures_bind, Action.ensures_modify, Action.ensures_bind]
        refine (Action.ensures_returns _ _).imp (fun converted middle hreturns => ?_) fun _ _ h => h
        have harrives : Arrives setting entry found.view before.chain :=
          hview.definition hdefinition
        have hmiddle := hkeeps _ _ _ _ (hreturns.leads true) harrives hheld (h.visit _)
        have hgrows := (hcontinues _ _ _ _ (hreturns.leads false)).grows
        have hcame : CameTo setting middle found.view :=
          hview.cameTo hdistinct hentry hbegins hrounds hdefinition hreturns
        have hover := hmiddle.of_visit hdistinct hentry harrives.descends hcame
        refine ((ih (hgrows.chain ▸ hview) hrest (hgrows.chain ▸ hheld) hmiddle.explored).and
          (gives_visitDefinitions hcontinues rest)).imp ?_ fun _ _ h => h.1
        rintro _ after ⟨hafter, hlater, -⟩
        exact hover.trans hafter hlater

section Steps

variable (hapart : NamesApart setting entry) (hbegins : Begins convert)
  (hcycles : RecordsCycles setting convert) (hrounds : GoesRound setting convert)

include hbegins hcycles hrounds

/-- The conversion of a reference or an array has done what it is for. -/
theorem Yields.finished_of_unnamed {opened stop : Context} {type : ValueType}
    {chain : List Pointer} (hunnamed : Unnamed view) (hview : Arrives setting entry view chain)
    (hchain : opened.chain = view.pointer :: chain) (hopened : Explored setting entry held opened)
    (hheld : held ⊆ opened.chain) (hgrows : opened.Grows stop)
    (h : Yields setting convert view opened stop type) : Finished setting held stop view := by
  refine .of_unnamed hunnamed ?_ (h.recordsCycle hcycles) ?_ ?_
  · intro other hother
    rcases h.passes hother with ⟨_, _, hmade, -⟩ | ⟨-, hmem, -⟩
    · exact hmade.begun hbegins
    · exact hgrows.begun (hopened.chain _ hmem)
  · intro other hother houtside hbare
    have hcall : CallsFor setting view other := .own hother.dependsOn
    rcases h.passes hother with ⟨_, _, hmade, -⟩ | ⟨-, hmem, -⟩
    · exact hmade.rounded hdistinct hentry hrounds hview hcall houtside hchain hbare
    · intro closing hcloses
      rw [hchain] at hmem
      exact absurd hmem
        (hview.not_mem hdistinct hentry hcall hbare hcloses.onBareCycle houtside .refl)
  -- What is held is still on the chain, where references to it are stopped.
  · intro target htarget hunnamedTarget hmem
    rcases h.passes (.inl htarget) with ⟨_, _, -, hfree⟩ | ⟨-, -, hrecorded⟩
    · exact absurd (hfree htarget (hheld hmem)) hunnamedTarget.not_named
    · exact hrecorded

include hapart

/-- A conversion that returns has done what it is for, unless the schema had an entry. -/
theorem Yields.finished {opened stop : Context} {type : ValueType} {chain : List Pointer}
    (hview : Arrives setting entry view chain) (hchain : opened.chain = view.pointer :: chain)
    (hopened : Explored setting entry held opened) (hheld : held ⊆ opened.chain)
    (hgrows : opened.Grows stop) (h : Yields setting convert view opened stop type) :
    Finished setting held stop view ∨ ∃ kind name, opened.HasEntry kind name view.pointer := by
  have hfinished : Unnamed view → Finished setting held stop view := fun hunnamed =>
    h.finished_of_unnamed hdistinct hentry hbegins hcycles hrounds hunnamed hview hchain hopened
      hheld hgrows
  have hcycle := h.recordsCycle hcycles
  cases h with
  | target htarget _ _ => exact .inl (hfinished ⟨_, htarget.conversionShape, rfl⟩)
  | circular _ htarget _ _ => exact .inl (hfinished ⟨_, htarget.conversionShape, rfl⟩)
  | nowhere hdangles _ => exact .inl (hfinished ⟨_, hdangles.conversionShape, rfl⟩)
  | items hitem _ => exact .inl (hfinished ⟨_, hitem.1, rfl⟩)
  | plain hshape hunnamed _ _ _ => exact .inl (hfinished ⟨_, hshape, hunnamed⟩)
  | unnamed _ _ hname =>
      exact absurd hname (hview.descends.placed hdistinct hentry).infer_ne_none
  | taken hshape hnamed hname howner _ =>
      exact .inr (hopened.hasEntry_of_taken hapart hview.descends hshape hnamed hname
        (by simp [howner]))
  | @entry name shape kind hshape hkind hname hfound _ hparts =>
      have hregisters : Registers setting view kind name.value :=
        ⟨shape, name, hshape, hkind, hname, rfl⟩
      -- References and arrays are of no kind, so that only parts are left.
      have hnever : ∀ {other}, ¬ Passes setting view other := fun hother =>
        hother.unnamed.not_named hregisters.named
      have hmade : ∀ other, DependsOn setting view other →
          ∃ loc converted, Made convert opened stop other loc converted := by
        intro other hother
        cases hother with
        | target htarget => exact absurd (.inl htarget) hnever
        | item hitem => exact absurd (.inr hitem) hnever
        | part hpart => exact ⟨_, hparts _ _ hpart⟩
      refine .inl ⟨fun other hother => ?_, ?_, hcycle, fun other hother houtside hbare => ?_, ?_⟩
      · obtain ⟨_, _, hmade⟩ := hmade other hother
        exact hmade.begun hbegins
      · intro other otherKind hother hotherKind
        obtain rfl := Except.ok.inj (hshape.symm.trans hother)
        obtain rfl := Option.some.inj (hkind.symm.trans hotherKind)
        exact ⟨name.value, hregisters, hfound⟩
      · obtain ⟨_, _, hmade⟩ := hmade other hother
        exact hmade.rounded hdistinct hentry hrounds hview (.own hother) houtside hchain hbare
      · exact fun _ htarget => absurd (.inl htarget) hnever

variable (hcontinues : Continues convert) (hkeeps : KeepsExplored setting entry held convert)

include hcontinues hkeeps

theorem explores_within {start : Context} (hview : Arrives setting entry view start.chain)
    (hheld : held ⊆ view.pointer :: start.chain)
    (hdefinitions : ∀ definition, Defines setting view definition →
      definition.pointer ∈ start.visited) (h : Explored setting entry held start) :
    (Action.within view.pointer (dispatch setting convert view loc)).Ensures start
      (fun _ after => Explores setting entry held start after) fun _ _ => True := by
  rw [Action.ensures_within, dispatch, Action.ensures_bind, Action.ensures_lift]
  refine ⟨fun shape hshape => ?_, fun _ _ => trivial⟩
  rw [Action.ensures_bind, Action.ensures_note]
  refine ((follows_shaped hshape).and (gives_shaped hcontinues hshape)).imp ?_ fun _ _ _ => trivial
  rintro converted stop ⟨⟨hcourse, -⟩, hgrows, hyields⟩
  have hopened := h.enter hdistinct hentry hview.descends hdefinitions shape
  have hstop := hcourse.explores hcontinues hkeeps hview rfl hheld
    (Context.begun_parsing_iff.mpr (.inl rfl)) hopened
  apply hstop.leave hdistinct hentry hview.descends rfl rfl hgrows
  rcases hyields.finished hdistinct hentry hapart hbegins hcycles hrounds hview rfl hopened hheld
    hgrows with hfinished | ⟨kind, name, hfound⟩
  · exact .inr hfinished
  · -- It was begun before then, so that it is finished or waits further out on the chain.
    refine (h.finished view hview.descends (h.entries kind name _ hfound).1).imp_right
      fun hfinished => ?_
    exact hfinished.enter.grows ((Context.Extends.note _ _).grows.trans hgrows)

theorem explores_step (hview : Arrives setting entry view before.chain)
    (hheld : held ⊆ before.chain)
    (h : Explored setting entry held before) :
    (step setting convert view loc).Ensures before
      (fun _ after => Explores setting entry held before after) fun _ _ => True := by
  rw [step, Action.ensures_bind]
  refine ((explores_visitDefinitions hdistinct hentry hcontinues hbegins hrounds hkeeps hview
    (fun _ h => h) hheld h).and (gives_visitDefinitions hcontinues _)).imp ?_ fun _ _ _ => trivial
  rintro _ start ⟨hstart, hgrows, hvisited⟩
  have hdefinitions : ∀ definition, Defines setting view definition →
      definition.pointer ∈ start.visited := by
    rintro _ ⟨found, hmem, hwanted, rfl⟩
    exact hvisited found hmem hwanted
  have hchain : held ⊆ view.pointer :: start.chain :=
    List.subset_cons_of_subset _ (hgrows.chain ▸ hheld)
  have hwithin : Gives start (Action.within view.pointer (dispatch setting convert view loc))
      fun _ _ => True := .within ((gives_dispatch hcontinues).imp fun _ _ _ _ _ => trivial)
  refine ((explores_within hdistinct hentry hapart hbegins hcycles hrounds hcontinues hkeeps
    (hgrows.chain ▸ hview) hchain hdefinitions hstart.explored).and hwithin).imp ?_
      fun _ _ _ => trivial
  rintro _ after ⟨hafter, hlater, -⟩
  exact hstart.trans hafter hlater

end Steps

theorem convertWithin_keepsExplored (hapart : NamesApart setting entry) (depth : Nat) :
    KeepsExplored setting entry held (convertWithin setting depth) := by
  induction depth with
  | zero =>
      rintro view loc before after ⟨-, hreturns⟩
      obtain ⟨_, hthrow⟩ := hreturns rfl
      exact absurd hthrow nofun
  | succ depth ih =>
      rintro view loc before after ⟨-, hreturns⟩ hview hheld h
      obtain ⟨_, hreturns⟩ := hreturns rfl
      exact (explores_step hdistinct hentry hapart (convertWithin_begins setting depth)
        (convertWithin_recordsCycles setting depth) (convertWithin_goesRound hdistinct depth)
        (convertWithin_continues setting depth) ih hview hheld h).of_returns hreturns

end Whole

theorem Explored.empty (setting : Setting) (entry : View) (held : List Pointer) :
    Explored setting entry held {} where
  chain _ hmem := absurd hmem List.not_mem_nil
  entries kind _ _ hentry := by
    cases kind <;> exact absurd hentry.choose_spec.1 List.not_mem_nil
  definitions _ _ _ hbegun := absurd hbegun.choose_spec List.not_mem_nil
  finished _ _ hbegun := absurd hbegun.choose_spec List.not_mem_nil

/-- When nothing is being converted any more, everything on the descents is finished. -/
theorem Explores.finished (h : Explores setting entry held {} after)
    (hentry : after.Begun entry.pointer) (hchain : after.chain = [])
    (hview : Descends setting entry view) :
    after.Begun view.pointer ∧ Finished setting held after view := by
  have hfinished : ∀ {view : View}, Descends setting entry view → after.Begun view.pointer →
      Finished setting held after view := fun hview hbegun =>
    (h.explored.finished _ hview hbegun).resolve_left (by simp [hchain])
  -- Being begun spreads along the descent, as everything begun is finished.
  have hbegun : after.Begun view.pointer := by
    induction hview with
    | refl => exact hentry
    | tail hview hcall ih =>
        cases hcall with
        | own hother => exact (hfinished hview ih).begun _ hother
        | definition hdefinition =>
            have hvisited := h.explored.definitions _ _ hview ih hdefinition
            exact ((h.visited _ (hview.tail (.definition hdefinition)) hvisited).resolve_left
              List.not_mem_nil).1
  exact ⟨hbegun, hfinished hview hbegun⟩

section Analyze

variable {converted : Converted} (hdistinct : DistinctKeys setting.document)
  (hapart : NamesApart setting (View.root setting.document))
  (hreturns : (analyze setting).1 = .ok converted)

include hdistinct hapart hreturns

theorem analyze_explores :
    Explores setting (View.root setting.document) [] {} (analyze setting).2 := by
  have hconvert := returns_of_analyze (Prod.ext hreturns rfl : analyze setting = (_, _))
  exact convertWithin_keepsExplored hdistinct (.root setting.document) hapart setting.depth _ _ _ _
    (hconvert.leads true) .start (List.nil_subset _) (.empty setting _ [])

/-- The conversion of a document finishes every schema on the descents from the root. -/
theorem analyze_finished (hview : Descends setting (View.root setting.document) view) :
    (analyze setting).2.Begun view.pointer ∧ Finished setting [] (analyze setting).2 view := by
  have hconvert := returns_of_analyze (Prod.ext hreturns rfl : analyze setting = (_, _))
  have hchain : (analyze setting).2.chain = [] :=
    (convertWithin_continues setting _ _ _ _ _ (hconvert.leads false)).chain
  have hbegun := convertWithin_begins setting _ _ _ _ _ _ hconvert
  exact (analyze_explores hdistinct hapart hreturns).finished hbegun hchain hview

/-- Wherever a bare cycle without definitions is entered, it is gone around. -/
theorem analyze_rounded {base : View} (hbare : CyclesBare setting (View.root setting.document))
    (hentered : Entered setting (View.root setting.document) base) :
    Rounded setting (analyze setting).2 base := by
  intro closing hcloses
  have hbase := hbare.bare hentered.descends hcloses.onBareCycle
  have hrounded : Rounded setting (analyze setting).2 base := by
    rcases hentered with rfl | ⟨view, hview, hcall, houtside⟩
    · exact convertWithin_goesRound hdistinct setting.depth _ _ _ _ _ (Prod.ext hreturns rfl)
        (.root setting.document) fun _ _ => List.not_mem_nil
    · have hexplores := analyze_explores hdistinct hapart hreturns
      have hfinished := analyze_finished hdistinct hapart hreturns hview
      cases hcall with
      | own hother => exact hfinished.2.rounds base hother houtside hbase
      | definition hdefinition =>
          have hbelow := hview.tail (.definition hdefinition)
          have hvisited := hexplores.explored.definitions _ _ hview hfinished.1 hdefinition
          have hcame := (hexplores.visited _ hbelow hvisited).resolve_left List.not_mem_nil
          exact hcame.2 hbase
  exact hrounded closing hcloses

end Analyze

/-- An object with the given members, wherever they are written. -/
def bareObject (members : List (String × Json.Node)) : Json.Node :=
  .object .start (members.map fun (name, value) => ⟨⟨name, name, .start⟩, value⟩)

def bareString (text : String) : Json.Node :=
  .scalar .start (.string text) text

namespace LinkedList

def link : View :=
  ⟨bareObject [("$ref", bareString "#/definitions/Node")], "#/definitions/Node/properties/next"⟩

def element : View :=
  ⟨bareObject [("type", bareString "object"), ("properties", bareObject [("next", link.node)])],
    "#/definitions/Node"⟩

/-- A definition of objects that refer to the next one of their kind. -/
def sample : Setting :=
  ⟨bareObject [("definitions", bareObject [("Node", element.node)])], "", {}⟩

def root : View :=
  View.root sample.document

theorem descends_cases {view : View} (h : Descends sample root view) :
    view = root ∨ view = element ∨ view = link := by
  have hcalled : calledFor sample root = [element] ∧ calledFor sample element = [link] ∧
      calledFor sample link = [element] := ⟨rfl, rfl, rfl⟩
  have hmem : view ∈ [root, element, link] := h.mem_of_closed List.mem_cons_self (by simp [hcalled])
  simpa using hmem

theorem registers_iff {view : View} {kind : EntryKind} {name : Str}
    (h : Descends sample root view) :
    Registers sample view kind name ↔ view = element ∧ kind = .type ∧ name = "Node" := by
  have hshapes : root.conversionShape = .ok .primitive ∧ element.conversionShape = .ok .object ∧
      link.conversionShape = .ok .reference := ⟨rfl, rfl, rfl⟩
  have hname : sample.naming.infer element = .ok (some ⟨"Node", some Range.start.code⟩) := rfl
  constructor
  · rintro ⟨shape, label, hshape, hkind, hlabel, rfl⟩
    rcases descends_cases h with rfl | rfl | rfl
    · rw [hshapes.1] at hshape
      obtain rfl := Except.ok.inj hshape
      exact absurd hkind nofun
    · rw [hshapes.2.1] at hshape
      obtain rfl := Except.ok.inj hshape
      rw [hname] at hlabel
      obtain rfl := Option.some.inj (Except.ok.inj hlabel)
      exact ⟨rfl, (Option.some.inj hkind).symm, rfl⟩
    · rw [hshapes.2.2] at hshape
      obtain rfl := Except.ok.inj hshape
      exact absurd hkind nofun
  · rintro ⟨rfl, rfl, rfl⟩
    exact ⟨_, _, hshapes.2.1, rfl, hname, rfl⟩

theorem descends_element : Descends sample root element :=
  .single (.definition (mem_wantedDefinitions_iff.mp List.mem_cons_self))

theorem namesApart : NamesApart sample root := by
  intro view other _ _ _ hview hother hregisters hothers
  rw [((registers_iff hview).mp hregisters).1, ((registers_iff hother).mp hothers).1]

end LinkedList

end Schemata.Analysis
