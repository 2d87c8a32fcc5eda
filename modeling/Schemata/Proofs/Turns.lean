import Schemata.Proofs.Consistency
import Schemata.Proofs.Exploration
import Schemata.Proofs.Frame

/-!
# First turns

Every schema that a conversion comes to has a first turn, before which nothing was done for
it. What was made and recorded in that turn is there to the end. So whatever the conversion
of a schema has to do was done, however often the schema is met again and for whatever
reason its later conversions are cut short.

What is recorded is recorded in some turn, of a schema that has its entry already if its
entry is open.
-/

namespace Schemata.Analysis

open Schema Source

namespace Context

/-- What was made, recorded and logged in one state is still known in another one, whatever is
being converted in either of them. -/
structure Persists (before after : Context) : Prop where
  entries : ∀ kind name source, before.HasEntry kind name source →
    after.HasEntry kind name source
  violations : before.violations ⊆ after.violations
  log : before.log <:+ after.log

variable {before middle after context : Context} {name : Str} {pointer : Pointer}

theorem Grows.persists (h : before.Grows after) : before.Persists after :=
  ⟨h.entries, h.violations.subset, h.log⟩

namespace Persists

theorem refl (context : Context) : context.Persists context :=
  (Grows.refl context).persists

theorem trans (hfirst : before.Persists middle) (hsecond : middle.Persists after) :
    before.Persists after :=
  ⟨fun _ _ _ hentry => hsecond.entries _ _ _ (hfirst.entries _ _ _ hentry),
    List.Subset.trans hfirst.violations hsecond.violations, hfirst.log.trans hsecond.log⟩

theorem begun (h : before.Persists after) (hbegun : before.Begun pointer) :
    after.Begun pointer := by
  obtain ⟨shape, hmem⟩ := hbegun
  exact ⟨shape, h.log.subset hmem⟩

end Persists

/-- Of two states that another one continues, the one that knows of something that the other
does not know of is the later one. -/
theorem not_begun_of_begun {other : Context} {otherPointer : Pointer}
    (hlog : context.log <:+ after.log) (hother : other.log <:+ after.log)
    (hbegun : context.Begun pointer) (hnew : ¬ other.Begun pointer)
    (hotherNew : ¬ context.Begun otherPointer) : ¬ other.Begun otherPointer := by
  rintro ⟨shape, hmem⟩
  rcases List.suffix_or_suffix_of_suffix hlog hother with hsuffix | hsuffix
  · obtain ⟨found, hfound⟩ := hbegun
    exact hnew ⟨found, hsuffix.subset hfound⟩
  · exact hotherNew ⟨shape, hsuffix.subset hmem⟩

/-! ### Owners -/

/-- Whoever has a name has an entry. -/
theorem hasEntry_of_lookup {owner : Entry} (h : context.lookup name = some owner) :
    ∃ kind, context.HasEntry kind name owner.source := by
  simp only [lookup, Option.or_eq_some_iff, Option.map_eq_some_iff] at h
  rcases h with ⟨type, htype, rfl⟩ | ⟨-, ⟨type, htype, rfl⟩ | ⟨-, type, htype, rfl⟩⟩
  · exact ⟨.type, type, Registry.get?_eq_some_iff.mp htype, rfl⟩
  · exact ⟨.enumeration, type, Registry.get?_eq_some_iff.mp htype, rfl⟩
  · exact ⟨.union, type, Registry.get?_eq_some_iff.mp htype, rfl⟩

/-- Whoever has an entry has its name, as no name is given twice. -/
theorem Consistent.lookup_eq (h : context.Consistent) {kind : EntryKind}
    (hentry : context.HasEntry kind name pointer) :
    ∃ owner, context.lookup name = some owner ∧ owner.source = pointer := by
  have hnames := h.names
  simp only [Context.names, List.nodup_append] at hnames
  obtain ⟨⟨-, -, henums⟩, -, hunions⟩ := hnames
  cases kind with
  | type =>
      obtain ⟨type, hmem, rfl⟩ := hentry
      exact ⟨.type type, by simp [lookup, Registry.get?_eq_some_iff.mpr hmem], rfl⟩
  | enumeration =>
      obtain ⟨type, hmem, rfl⟩ := hentry
      have hname : name ∈ context.enumRegistry.names := Registry.mem_names_iff.mpr ⟨type, hmem⟩
      have htypes : context.typeRegistry.get? name = none :=
        Registry.get?_eq_none_iff.mpr fun hother => henums name hother name hname rfl
      exact ⟨.enumeration type, by simp [lookup, htypes, Registry.get?_eq_some_iff.mpr hmem], rfl⟩
  | union =>
      obtain ⟨type, hmem, rfl⟩ := hentry
      have hname : name ∈ context.unionRegistry.names := Registry.mem_names_iff.mpr ⟨type, hmem⟩
      have hothers : ∀ other ∈ context.typeRegistry.names ++ context.enumRegistry.names,
          other ≠ name := fun other hother => hunions other hother name hname
      have htypes : context.typeRegistry.get? name = none :=
        Registry.get?_eq_none_iff.mpr fun hmem => hothers name (List.mem_append_left _ hmem) rfl
      have henums : context.enumRegistry.get? name = none :=
        Registry.get?_eq_none_iff.mpr fun hmem => hothers name (List.mem_append_right _ hmem) rfl
      exact ⟨.union type, by simp [lookup, htypes, henums, Registry.get?_eq_some_iff.mpr hmem], rfl⟩

end Context

/-! ### Turns -/

/-- In a state, the schema at a pointer was begun, and is to become an entry of a kind and
name. -/
def Backs (setting : Setting) (context : Context) (kind : EntryKind) (name : Str)
    (source : Pointer) : Prop :=
  context.Begun source ∧
    ∃ view, Met setting view ∧ view.pointer = source ∧ Registers setting view kind name

/-- Entries were made of nothing but schemas that were begun. -/
def Grounded (setting : Setting) (context : Context) : Prop :=
  ∀ kind name source, context.HasEntry kind name source → Backs setting context kind name source

theorem Grounded.empty (setting : Setting) : Grounded setting {} := by
  intro kind name source hentry
  cases kind with
  | type | enumeration | union => exact absurd hentry.choose_spec.1 List.not_mem_nil

/-- Between two states a schema was converted that had not been begun. Its definitions were
visited before, and its pointer is on the chain. -/
structure FirstTurn (setting : Setting) (view : View) (opened closed : Context) : Prop where
  new : ¬ opened.Begun view.pointer
  grounded : Grounded setting opened
  begins : ∃ shape, (opened.note (.parsing view.pointer shape)).Grows closed
  yields : ∃ depth type, Yields setting (convertWithin setting depth) view opened closed type

/-- An open entry is that of a schema, under its name. -/
def Owns (setting : Setting) (view : View) (opened : Option Label) (context : Context) : Prop :=
  ∀ name, opened = some name → ∃ kind, Registers setting view kind name.value ∧
    context.HasEntry kind name.value view.pointer

/-- A violation was recorded while a schema was converted, in a state of which nothing is
forgotten since. -/
inductive RecordedBy (setting : Setting) (after : Context) : Violation → Prop
  | intro {view : View} {opened : Option Label} {context : Context} {problem : Problem}
      {range : Option LocationCode} (hview : Met setting view)
      (hreports : Reports setting view opened context problem range)
      (hbegun : context.Begun view.pointer) (howns : Owns setting view opened context)
      (hlater : context.Persists after) :
      RecordedBy setting after (problem.violation range setting.sourcePath)

/-- From one state to the other, whatever was begun had its first turn, and whatever was
recorded was recorded in some turn. -/
structure Unfolds (setting : Setting) (before after : Context) : Prop where
  persists : before.Persists after
  grounded : Grounded setting after
  turns : ∀ pointer, after.Begun pointer → before.Begun pointer ∨
    ∃ view opened closed, Met setting view ∧ view.pointer = pointer ∧
      FirstTurn setting view opened closed ∧ closed.Persists after
  recorded : ∀ violation ∈ after.violations, violation ∈ before.violations ∨
    RecordedBy setting after violation

/-- What is done in the turn of a schema unfolds. -/
def UnfoldsFor (setting : Setting) (view : View) (opened : Option Label)
    (before after : Context) : Prop :=
  Grounded setting before → before.Begun view.pointer → Owns setting view opened before →
    Unfolds setting before after

variable {setting : Setting} {view : View} {opened : Option Label}
  {before middle after context : Context}

theorem FirstTurn.grows {start stop : Context} (h : FirstTurn setting view start stop) :
    start.Grows stop := by
  obtain ⟨shape, hgrows⟩ := h.begins
  exact (Context.Extends.note start _).grows.trans hgrows

theorem Owns.persists (h : Owns setting view opened before) (hpersists : before.Persists after) :
    Owns setting view opened after := by
  intro name hname
  obtain ⟨kind, hregisters, hentry⟩ := h name hname
  exact ⟨kind, hregisters, hpersists.entries _ _ _ hentry⟩

theorem RecordedBy.persists {violation : Violation} (h : RecordedBy setting before violation)
    (hpersists : before.Persists after) : RecordedBy setting after violation := by
  obtain ⟨hview, hreports, hbegun, howns, hlater⟩ := h
  exact .intro hview hreports hbegun howns (hlater.trans hpersists)

namespace Unfolds

theorem trans (hfirst : Unfolds setting before middle) (hsecond : Unfolds setting middle after) :
    Unfolds setting before after where
  persists := hfirst.persists.trans hsecond.persists
  grounded := hsecond.grounded
  turns pointer hbegun := by
    rcases hsecond.turns pointer hbegun with hmiddle | hturn
    · refine (hfirst.turns pointer hmiddle).imp_right ?_
      rintro ⟨view, start, stop, hview, heq, hturn, hstop⟩
      exact ⟨view, start, stop, hview, heq, hturn, hstop.trans hsecond.persists⟩
    · exact .inr hturn
  recorded violation hviolation := by
    rcases hsecond.recorded violation hviolation with hmiddle | hrecorded
    · exact (hfirst.recorded violation hmiddle).imp_right fun h => h.persists hsecond.persists
    · exact .inr hrecorded

/-- A change that begins nothing and records nothing unfolds nothing, if new entries are those
of schemas that were begun. -/
theorem silent (hpersists : before.Persists after) (hgrounded : Grounded setting before)
    (hentries : ∀ kind name source, after.HasEntry kind name source →
      before.HasEntry kind name source ∨ Backs setting before kind name source)
    (hbegun : ∀ pointer, after.Begun pointer → before.Begun pointer)
    (hviolations : after.violations ⊆ before.violations) : Unfolds setting before after where
  persists := hpersists
  grounded kind name source hentry :=
    ((hentries kind name source hentry).elim (hgrounded kind name source) id).imp_left
      hpersists.begun
  turns pointer h := .inl (hbegun pointer h)
  recorded _ h := .inl (hviolations h)

theorem refl (hgrounded : Grounded setting before) : Unfolds setting before before :=
  silent (.refl before) hgrounded (fun _ _ _ => .inl) (fun _ => id) (List.Subset.refl _)

theorem note {event : Event} (hevent : ∀ pointer shape, event ≠ .parsing pointer shape)
    (hgrounded : Grounded setting before) : Unfolds setting before (before.note event) := by
  refine silent (Context.Extends.note before event).grows.persists hgrounded ?_
    (fun _ => (Context.begun_note_iff hevent).mp) (List.Subset.refl _)
  intro kind name source hentry
  cases kind <;> exact .inl hentry

theorem record {problem : Problem} {range : Option LocationCode} (hview : Met setting view)
    (hreports : Reports setting view opened before problem range)
    (hbegun : before.Begun view.pointer) (howns : Owns setting view opened before)
    (hgrounded : Grounded setting before) :
    Unfolds setting before (before.record (problem.violation range setting.sourcePath)) where
  persists := (Context.Extends.record before _).grows.persists
  grounded kind name source hentry :=
    (hgrounded kind name source (Context.hasEntry_record_iff.mp hentry)).imp_left
      Context.begun_record_iff.mpr
  turns pointer h := .inl (Context.begun_record_iff.mp h)
  recorded _ h := by
    refine (Context.mem_violations_of_record h).imp_right fun heq => ?_
    subst heq
    exact .intro hview hreports hbegun howns (Context.Extends.record before _).grows.persists

theorem completeType (name : Str) (properties : List Property) (rules : List Rule)
    (hgrounded : Grounded setting before) :
    Unfolds setting before (before.completeType name properties rules) :=
  silent (Context.Grows.completeType before name properties rules).persists hgrounded
    (fun _ _ _ hentry => .inl (Context.hasEntry_completeType_iff.mp hentry)) (fun _ => id)
    (List.Subset.refl _)

theorem completeUnion (name : Str) (kind : UnionKind) (members : List ValueType)
    (discriminator : Option Label) (hgrounded : Grounded setting before) :
    Unfolds setting before (before.completeUnion name kind members discriminator) :=
  silent (Context.Grows.completeUnion before name kind members discriminator).persists hgrounded
    (fun _ _ _ hentry => .inl (Context.hasEntry_completeUnion_iff.mp hentry)) (fun _ => id)
    (List.Subset.refl _)

theorem leave (h : Unfolds setting before after) : Unfolds setting before after.leave where
  persists := ⟨h.persists.entries, h.persists.violations, h.persists.log⟩
  grounded := h.grounded
  turns pointer hbegun := by
    refine (h.turns pointer hbegun).imp_right ?_
    rintro ⟨view, start, stop, hview, heq, hturn, hstop⟩
    exact ⟨view, start, stop, hview, heq, hturn, hstop.entries, hstop.violations, hstop.log⟩
  recorded violation hviolation :=
    (h.recorded violation hviolation).imp_right fun hrecorded =>
      hrecorded.persists ⟨fun _ _ _ => id, List.Subset.refl _, List.suffix_rfl⟩

end Unfolds

theorem UnfoldsFor.andThen (hfirst : UnfoldsFor setting view opened before middle)
    (hsecond : UnfoldsFor setting view opened middle after) :
    UnfoldsFor setting view opened before after := by
  intro hgrounded hbegun howns
  have hmiddle := hfirst hgrounded hbegun howns
  exact hmiddle.trans
    (hsecond hmiddle.grounded (hmiddle.persists.begun hbegun) (howns.persists hmiddle.persists))

/-- A schema makes a free name its own, and goes on with its entry open. -/
theorem UnfoldsFor.declare {name : Label} {shape : Shape} {kind : EntryKind}
    (hname : Declares setting view before name) (hshape : view.conversionShape = .ok shape)
    (hkind : entryKind? shape = some kind) (hgrows : before.Grows middle)
    (hlog : middle.log = before.log) (hviolations : middle.violations = before.violations)
    (hentries : ∀ {other : EntryKind} {key : Str} {source : Pointer},
      middle.HasEntry other key source ↔ before.HasEntry other key source ∨
        other = kind ∧ key = name.value ∧ source = view.pointer)
    (hview : Met setting view) (hrest : UnfoldsFor setting view (some name) middle after) :
    UnfoldsFor setting view none before after := by
  intro hgrounded hbegun _
  have hregisters : Registers setting view kind name.value :=
    ⟨shape, name, hshape, hkind, hname.1, rfl⟩
  have hadded : Unfolds setting before middle := by
    refine .silent hgrows.persists hgrounded ?_ ?_ (by rw [hviolations]; exact .refl _)
    · intro other key source hentry
      refine (hentries.mp hentry).imp_right ?_
      rintro ⟨rfl, rfl, rfl⟩
      exact ⟨hbegun, view, hview, rfl, hregisters⟩
    · rintro pointer ⟨found, hmem⟩
      exact ⟨found, hlog ▸ hmem⟩
  refine hadded.trans (hrest hadded.grounded (hadded.persists.begun hbegun) ?_)
  rintro _ ⟨⟩
  exact ⟨kind, hregisters, hentries.mpr (.inr ⟨rfl, rfl, rfl⟩)⟩

section Runs

variable {convert : Converter} {loc : Option LocationCode}
  (hconvert : ∀ view loc before after, (convert view loc).Leads true before after →
    Met setting view → Grounded setting before → Unfolds setting before after)
  (hview : Met setting view)

include hconvert hview

/-- The whole course of a schema unfolds in its turn. -/
theorem Course.unfoldsFor (hcourse : Course setting convert view loc true opened before after) :
    UnfoldsFor setting view opened before after := by
  induction hcourse with
  | done => exact fun hgrounded _ _ => .refl hgrounded
  | andThen _ _ ihFirst ihSecond => exact ihFirst.andThen ihSecond
  | note hevent => exact fun hgrounded _ _ => .note hevent hgrounded
  | report hreport =>
      exact fun hgrounded hbegun howns => .record hview hreport hbegun howns hgrounded
  | convert hcall hcalled =>
      exact fun hgrounded _ _ =>
        hconvert _ _ _ _ hcalled (hview.tail (.own hcall.dependsOn)) hgrounded
  | enumEntry hname hshape =>
      exact .declare hname hshape rfl (Context.Extends.addEnum hname.2).grows rfl rfl
        (Context.hasEntry_addEnum_iff _ hname.2) hview fun hgrounded _ _ => .refl hgrounded
  | typeOpened hname hshape hkind _ ih =>
      exact .declare hname hshape (entryKind?_of_type hkind)
        (Context.Extends.addType hname.2).grows rfl rfl
        (Context.hasEntry_addType_iff (newType view _ loc) hname.2) hview ih
  | typeEntry hname hshape hkind _ _ _ ihStart ih =>
      refine .declare hname hshape (entryKind?_of_type hkind)
        (Context.Extends.addType hname.2).grows rfl rfl
        (Context.hasEntry_addType_iff (newType view _ loc) hname.2) hview
        (ihStart.andThen (ih.andThen ?_))
      exact fun hgrounded _ _ => .completeType _ _ _ hgrounded
  | unionOpened hname hshape _ ih =>
      exact .declare hname hshape rfl (Context.Extends.addUnion hname.2).grows rfl rfl
        (Context.hasEntry_addUnion_iff (newUnion view _ loc) hname.2) hview ih
  | unionEntry hname hshape _ _ _ ihStart ih =>
      refine .declare hname hshape rfl (Context.Extends.addUnion hname.2).grows rfl rfl
        (Context.hasEntry_addUnion_iff (newUnion view _ loc) hname.2) hview
        (ihStart.andThen (ih.andThen ?_))
      exact fun hgrounded _ _ => .completeUnion _ _ _ _ hgrounded

omit hview in
theorem unfolds_visitDefinitions {entries : List Schema.Entry} (hview : Met setting view)
    (hentries : ∀ entry ∈ entries, entry ∈ definitionEntries view)
    (hgrounded : Grounded setting before) :
    (visitDefinitions setting convert entries).Ensures before
      (fun _ after => Unfolds setting before after) fun _ _ => True := by
  induction entries generalizing before with
  | nil => exact .refl hgrounded
  | cons entry rest ih =>
      have hrest := fun other hother => hentries other (List.mem_cons_of_mem entry hother)
      rw [visitDefinitions, Action.ensures_bind, Action.ensures_get]
      split
      · exact ih hrest hgrounded
      next hnew =>
        simp only [Bool.or_eq_true, decide_eq_true_eq, not_or] at hnew
        have hdefinition : Defines setting view entry.view :=
          ⟨entry, hentries entry List.mem_cons_self, hnew.1, rfl⟩
        rw [Action.ensures_bind, Action.ensures_modify, Action.ensures_bind]
        refine (Action.ensures_returns _ _).imp (fun _ middle hreturns => ?_) fun _ _ h => h
        have hmiddle : Unfolds setting (before.visit entry.view.pointer) middle :=
          hconvert _ _ _ _ (hreturns.leads true) (hview.tail (.definition hdefinition)) hgrounded
        refine (ih hrest hmiddle.grounded).imp (fun _ after hafter => ?_) fun _ _ h => h
        have hvisit : Unfolds setting before (before.visit entry.view.pointer) :=
          .silent (Context.Extends.visit before _).grows.persists hgrounded (fun _ _ _ => .inl)
            (fun _ => id) (List.Subset.refl _)
        exact (hvisit.trans hmiddle).trans hafter

end Runs

/-- With its pointer on the chain, a schema takes a turn, which is its first one unless it was
begun before. -/
theorem unfolds_within {depth : Nat} {loc : Option LocationCode}
    (hconvert : ∀ view loc before after, (convertWithin setting depth view loc).Leads true before
      after → Met setting view → Grounded setting before → Unfolds setting before after)
    (hview : Met setting view) (hgrounded : Grounded setting before) :
    (Action.within view.pointer (dispatch setting (convertWithin setting depth) view loc)).Ensures
      before (fun _ after => Unfolds setting before after) fun _ _ => True := by
  have hcontinues := convertWithin_continues setting depth
  rw [Action.ensures_within, dispatch, Action.ensures_bind, Action.ensures_lift]
  refine ⟨fun shape hshape => ?_, fun _ _ => trivial⟩
  rw [Action.ensures_bind, Action.ensures_note]
  refine ((follows_shaped hshape).and (gives_shaped hcontinues hshape)).imp ?_ fun _ _ _ => trivial
  rintro converted stop ⟨⟨hcourse, -⟩, hgrows, hyields⟩
  have hopened : Grounded setting
      ((before.enter view.pointer).note (.parsing view.pointer shape)) := by
    intro kind name source hentry
    have hbefore : before.HasEntry kind name source := by cases kind <;> exact hentry
    exact (hgrounded kind name source hbefore).imp_left fun hbegun =>
      Context.begun_parsing_iff.mpr (.inr hbegun)
  have hrun := hcourse.unfoldsFor hconvert hview hopened
    (Context.begun_parsing_iff.mpr (.inl rfl)) fun name hname =>
      absurd hname.symm (Option.some_ne_none name)
  have hturn : ¬ before.Begun view.pointer →
      FirstTurn setting view (before.enter view.pointer) stop := fun hnew =>
    ⟨hnew, hgrounded, ⟨shape, hgrows⟩, depth, _,
      hyields.widen (Context.Extends.note _ _).grows fun _ => rfl⟩
  refine Unfolds.leave ⟨⟨fun kind name source hentry => ?_, ?_, ?_⟩, hrun.grounded, ?_, ?_⟩
  · refine hrun.persists.entries kind name source ?_
    cases kind <;> exact hentry
  · exact hrun.persists.violations
  · exact (List.suffix_cons _ _).trans hrun.persists.log
  · intro pointer hpointer
    rcases hrun.turns pointer hpointer with hbegun | hother
    · rcases Context.begun_parsing_iff.mp hbegun with rfl | hbefore
      · by_cases hnew : before.Begun view.pointer
        · exact .inl hnew
        · exact .inr ⟨view, _, stop, hview, rfl, hturn hnew, .refl stop⟩
      · exact .inl hbefore
    · exact .inr hother
  · exact hrun.recorded

theorem convertWithin_unfolds (setting : Setting) (depth : Nat) :
    ∀ view loc before after, (convertWithin setting depth view loc).Leads true before after →
      Met setting view → Grounded setting before → Unfolds setting before after := by
  induction depth with
  | zero =>
      intro view loc before after hleads _ _
      obtain ⟨_, hreturns⟩ := hleads.2 rfl
      exact absurd hreturns nofun
  | succ depth ih =>
      intro view loc before after hleads hview hgrounded
      obtain ⟨converted, hreturns⟩ := hleads.2 rfl
      have hstep : (step setting (convertWithin setting depth) view loc).Ensures before
          (fun _ after => Unfolds setting before after) fun _ _ => True := by
        rw [step, Action.ensures_bind]
        refine (unfolds_visitDefinitions ih hview (fun _ h => h) hgrounded).imp
          (fun _ middle hmiddle => ?_) fun _ _ h => h
        exact (unfolds_within ih hview hmiddle.grounded).imp
          (fun _ _ hafter => hmiddle.trans hafter) fun _ _ h => h
      exact hstep.of_returns hreturns

/-- The conversion of a document unfolds from nothing. -/
theorem analyze_unfolds {converted : Converted} (h : analyze setting = (.ok converted, context)) :
    Unfolds setting {} context :=
  convertWithin_unfolds setting _ _ _ _ _ ((returns_of_analyze h).leads true) .refl
    (.empty setting)

theorem analyze_consistent {converted : Converted}
    (h : analyze setting = (.ok converted, context)) : context.Consistent :=
  convertWithin_consistent setting _ _ _ _ _ ((returns_of_analyze h).leads false) .empty

theorem analyze_nodup {converted : Converted}
    (h : analyze setting = (.ok converted, context)) : context.violations.Nodup :=
  (convertWithin_keeps setting _ _ _ _ _ ((returns_of_analyze h).leads false)).distinct
    List.nodup_nil

/-- What the first turn of a schema left in the end of its name, which belongs to the owner. -/
inductive Settled (setting : Setting) (view : View) (opened context : Context) (name : Label)
    (owner : Entry) : Prop
  | own (hown : owner.source = view.pointer) (htold : MembersTold setting view context)
  | other (hother : owner.source ≠ view.pointer) (hearlier : opened.Begun owner.source)
      (hrecorded : setting.options.reportDuplicateNames = true →
        collision setting view name owner.source ∈ context.violations)

/-- After its first turn, the name of a schema belongs to it or to another one that was begun
before. -/
theorem FirstTurn.settled {opened closed : Context} (h : FirstTurn setting view opened closed)
    (hclosed : closed.Persists context) (hconsistent : context.Consistent)
    (hplaced : Placed setting.document view) (hnamed : Named view) :
    ∃ name owner, setting.naming.infer view = .ok (some name) ∧
      context.lookup name.value = some owner ∧ Settled setting view opened context name owner := by
  have hunnamed : ¬ Unnamed view := fun hunnamed => hunnamed.not_named hnamed
  obtain ⟨_, _, hyields⟩ := h.yields
  cases hyields with
  | target htarget => exact absurd ⟨_, htarget.conversionShape, rfl⟩ hunnamed
  | circular _ htarget => exact absurd ⟨_, htarget.conversionShape, rfl⟩ hunnamed
  | nowhere hdangles => exact absurd ⟨_, hdangles.conversionShape, rfl⟩ hunnamed
  | items hitem => exact absurd ⟨_, hitem.1, rfl⟩ hunnamed
  | plain hshape hother => exact absurd ⟨_, hshape, hother⟩ hunnamed
  | unnamed _ _ hname => exact absurd hname hplaced.infer_ne_none
  | @taken name shape hshape _ hname earlier howner hrecorded =>
      obtain ⟨kind, hentry⟩ := Context.hasEntry_of_lookup howner
      have hearlier := (h.grounded _ _ _ hentry).1
      have hother : earlier.source ≠ view.pointer := fun heq => h.new (heq ▸ hearlier)
      have hlasts := hclosed.entries _ _ _ (h.grows.entries _ _ _ hentry)
      obtain ⟨owner, hlookup, heq⟩ := hconsistent.lookup_eq hlasts
      refine ⟨name, owner, hname, hlookup, ?_⟩
      rw [← heq] at hother hearlier hrecorded
      exact .other hother hearlier fun hset => hclosed.violations (hrecorded hother hset)
  | entry _ _ hname hentry htold _ =>
      obtain ⟨owner, hlookup, heq⟩ := hconsistent.lookup_eq (hclosed.entries _ _ _ hentry)
      refine ⟨_, owner, hname, hlookup, .own heq fun hshape member hmember reference hdangles => ?_⟩
      exact hclosed.violations (htold hshape member hmember reference hdangles)

section Whole

variable {converted : Converted} (hanalyze : analyze setting = (.ok converted, context))

include hanalyze

/-- Every schema that was begun had a first turn, which left its traces. -/
theorem exists_firstTurn (hdistinct : DistinctKeys setting.document)
    (hplaced : Placed setting.document view) (hbegun : context.Begun view.pointer) :
    ∃ opened closed, FirstTurn setting view opened closed ∧ closed.Persists context := by
  rcases (analyze_unfolds hanalyze).turns view.pointer hbegun with ⟨_, hnone⟩ | hturn
  · exact absurd hnone List.not_mem_nil
  · obtain ⟨other, opened, closed, hother, heq, hturn, hclosed⟩ := hturn
    obtain rfl := (hother.placed hdistinct (.root _)).eq_of_pointer hplaced heq
    exact ⟨opened, closed, hturn, hclosed⟩

/-- Every violation was recorded in some turn. -/
theorem recordedBy_of_mem {violation : Violation} (h : violation ∈ context.violations) :
    RecordedBy setting context violation :=
  ((analyze_unfolds hanalyze).recorded violation h).resolve_left List.not_mem_nil

end Whole

end Schemata.Analysis
