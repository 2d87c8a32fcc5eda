import Schemata.Proofs.Marks
import Schemata.Proofs.Turns

/-!
# Names that are taken

The schema that claims a name first keeps it. Every other schema of that name is recorded
once, with the pointer to the one that has the name, however often it is met and whatever
else is recorded in between. Nothing else is recorded as a duplicate name.
-/

namespace Schemata

/-- The violation tells of a schema whose name another one has. -/
def Violation.TellsOf (violation : Violation) (name : Str) (pointer : Pointer) : Prop :=
  violation.code = .duplicateName ∧
    ∃ owner, violation.message = (Problem.duplicateName name pointer owner).message

/-- A separator that overlaps no copy of itself cuts a text in one way where it stands for the
first time. -/
theorem append_separator_inj {separator first second rest others : Str}
    (hoverlap : ∀ part ∈ separator.tails, part <+: separator → part = [] ∨ part = separator)
    (hfirst : ¬ separator <:+: first) (hsecond : ¬ separator <:+: second)
    (h : first ++ (separator ++ rest) = second ++ (separator ++ others)) :
    first = second ∧ rest = others := by
  wlog hle : first.length ≤ second.length generalizing first second rest others
  · obtain ⟨hsame, hrest⟩ := this hsecond hfirst h.symm (Nat.le_of_not_le hle)
    exact ⟨hsame.symm, hrest.symm⟩
  have hwithin : first <+: second ++ (separator ++ others) := h ▸ List.prefix_append ..
  obtain ⟨gap, rfl⟩ := List.prefix_of_prefix_length_le hwithin (List.prefix_append ..) hle
  rw [List.append_assoc] at h
  have hgap : separator ++ rest = gap ++ (separator ++ others) := List.append_cancel_left h
  have hbegins : separator <+: gap ++ (separator ++ others) := hgap ▸ List.prefix_append ..
  rcases Nat.lt_or_ge gap.length separator.length with hshort | hlong
  · -- The separator goes on behind the gap with a part of its copy.
    obtain ⟨part, rfl⟩ :=
      List.prefix_of_prefix_length_le (List.prefix_append ..) hbegins hshort.le
    rw [List.append_assoc] at hgap
    have hpart : part <+: gap ++ part :=
      List.prefix_of_prefix_length_le (List.append_cancel_left hgap ▸ List.prefix_append part _)
        (List.prefix_append ..) (by simp)
    rcases hoverlap part ((List.mem_tails ..).mpr (List.suffix_append ..)) hpart with rfl | hwhole
    · simp at hshort
    · obtain rfl : gap = [] := List.append_left_eq_self.mp hwhole.symm
      exact ⟨(List.append_nil _).symm, List.append_cancel_left (List.append_cancel_left hgap)⟩
  · have hbefore := List.prefix_of_prefix_length_le hbegins (List.prefix_append ..) hlong
    exact absurd (hbefore.isInfix.trans (List.suffix_append first gap).isInfix) hsecond

/-- Neither a name nor a pointer has the words that follow it in a message about duplicate
names. -/
def Legible (name : Str) (pointer : Pointer) : Prop :=
  ¬ Str.ofString "' at " <:+: name ∧ ¬ Str.ofString " is already used by" <:+: pointer

/-- The parts of a message, with what separates them. -/
theorem Problem.message_duplicateName (name : Str) (pointer owner : Pointer) :
    (Problem.duplicateName name pointer owner).message =
      "Name '" ++ (name ++ ("' at " ++ (pointer ++
        (" is already used by" ++ (.char ' ' :: owner ++ "."))))) := by
  have hblank : Str.ofString " is already used by " =
      Str.ofString " is already used by" ++ [.char ' '] := rfl
  change "Name '" ++ name ++ "' at " ++ pointer ++ " is already used by " ++ owner ++ "." = _
  simp only [hblank, List.append_assoc, List.cons_append, List.nil_append]

/-- Legible names and pointers can be read off a message. -/
theorem Problem.duplicateName_inj {name otherName : Str} {pointer otherPointer owner
    otherOwner : Pointer} (hlegible : Legible name pointer)
    (hother : Legible otherName otherPointer)
    (h : (Problem.duplicateName name pointer owner).message =
      (Problem.duplicateName otherName otherPointer otherOwner).message) :
    name = otherName ∧ pointer = otherPointer ∧ owner = otherOwner := by
  rw [message_duplicateName, message_duplicateName] at h
  obtain ⟨hnames, hrest⟩ := append_separator_inj (by decide) hlegible.1 hother.1
    (List.append_cancel_left h)
  obtain ⟨hpointers, hrest⟩ := append_separator_inj (by decide) hlegible.2 hother.2 hrest
  have howners := (List.cons.inj (List.append_cancel_right hrest)).2
  exact ⟨hnames, hpointers, howners⟩

end Schemata

namespace Schemata.Analysis

open Schema Source

/-- In a state, a schema was converted that is to become an entry, and the owner has its
name. -/
structure Claims (setting : Setting) (context : Context) (view : View) (name : Label)
    (owner : Entry) : Prop where
  placed : Placed setting.document view
  begun : context.Begun view.pointer
  named : Named view
  inferred : setting.naming.infer view = .ok (some name)
  owned : context.lookup name.value = some owner

/-- Of all schemas that are to become entries of a name, the one at a pointer was the first to
be converted. -/
def ClaimedFirst (setting : Setting) (context : Context) (name : Str) (pointer : Pointer) :
    Prop :=
  ∃ view kind shape later earlier, Placed setting.document view ∧ view.pointer = pointer ∧
    Registers setting view kind name ∧
    context.log = later ++ .parsing pointer shape :: earlier ∧
    ∀ other otherKind otherShape, Placed setting.document other →
      Registers setting other otherKind name → .parsing other.pointer otherShape ∉ earlier

variable {setting : Setting} {view : View} {context : Context} {name : Label} {owner : Entry}

/-- A schema has one name, and a name has one owner. -/
theorem Claims.unique {otherName : Label} {otherOwner : Entry}
    (h : Claims setting context view name owner)
    (hother : Claims setting context view otherName otherOwner) :
    name = otherName ∧ owner = otherOwner := by
  obtain rfl := Option.some.inj (Except.ok.inj (h.inferred.symm.trans hother.inferred))
  exact ⟨rfl, Option.some.inj (h.owned.symm.trans hother.owned)⟩

section Whole

variable {converted : Converted} (hanalyze : analyze setting = (.ok converted, context))
  (hdistinct : DistinctKeys setting.document)

include hanalyze hdistinct

/-- A named schema that was converted has a name in the end, which was settled in its first
turn. -/
theorem exists_claims (hplaced : Placed setting.document view)
    (hbegun : context.Begun view.pointer) (hnamed : Named view) :
    ∃ name owner, Claims setting context view name owner ∧
      ∃ opened, opened.Persists context ∧ ¬ opened.Begun view.pointer ∧
        Settled setting view opened context name owner := by
  obtain ⟨opened, _, hturn, hclosed⟩ := exists_firstTurn hanalyze hdistinct hplaced hbegun
  obtain ⟨name, owner, hname, howner, hsettled⟩ :=
    hturn.settled hclosed (analyze_consistent hanalyze) hplaced hnamed
  exact ⟨name, owner, ⟨hplaced, hbegun, hnamed, hname, howner⟩, opened,
    hturn.grows.persists.trans hclosed, hturn.new, hsettled⟩

theorem Claims.settled (h : Claims setting context view name owner) :
    ∃ opened, opened.Persists context ∧ ¬ opened.Begun view.pointer ∧
      Settled setting view opened context name owner := by
  obtain ⟨_, _, hclaims, hsettled⟩ := exists_claims hanalyze hdistinct h.placed h.begun h.named
  obtain ⟨rfl, rfl⟩ := h.unique hclaims
  exact hsettled

/-- The owner of a name was converted before all others that are to have it. -/
theorem Claims.claimedFirst (h : Claims setting context view name owner) :
    ClaimedFirst setting context name.value owner.source := by
  obtain ⟨kind, hentry⟩ := Context.hasEntry_of_lookup h.owned
  obtain ⟨hbegun, first, hfirst, heq, hregisters⟩ :=
    (analyze_unfolds hanalyze).grounded _ _ _ hentry
  have hplaced := hfirst.placed hdistinct (.root _)
  rw [← heq] at hbegun
  obtain ⟨opened, closed, hturn, hclosed⟩ := exists_firstTurn hanalyze hdistinct hplaced hbegun
  obtain ⟨shape, hbegins⟩ := hturn.begins
  obtain ⟨later, hlater⟩ := hbegins.log.trans hclosed.log
  refine ⟨first, kind, shape, later, opened.log, hplaced, heq, hregisters, ?_, ?_⟩
  · rw [← heq, ← hlater]
    rfl
  intro other otherKind otherShape hother hotherRegisters hmem
  have hopened := hturn.grows.persists.trans hclosed
  -- Whoever claims the name has found it taken in the first turn of its own.
  have hbefore : opened.Begun other.pointer := ⟨otherShape, hmem⟩
  obtain ⟨label, found, hclaims, start, hstart, hnew, hsettled⟩ :=
    exists_claims hanalyze hdistinct hother (hopened.begun hbefore) hotherRegisters.named
  have hlabel : label.value = name.value := by
    obtain ⟨_, otherLabel, -, -, hinferred, hvalue⟩ := hotherRegisters
    rw [Option.some.inj (Except.ok.inj (hclaims.inferred.symm.trans hinferred)), hvalue]
  obtain rfl : found = owner :=
    Option.some.inj ((hlabel ▸ hclaims.owned).symm.trans h.owned)
  cases hsettled with
  | own hown => exact hturn.new (heq ▸ hown ▸ hbefore)
  | other _ hearlier =>
      exact Context.not_begun_of_begun hstart.log hopened.log hearlier (heq ▸ hturn.new) hnew
        hbefore

/-- A schema whose name belongs to another one is recorded. -/
theorem Claims.collision_mem (hset : setting.options.reportDuplicateNames = true)
    (h : Claims setting context view name owner) (hother : owner.source ≠ view.pointer) :
    collision setting view name owner.source ∈ context.violations := by
  obtain ⟨_, -, -, hsettled⟩ := h.settled hanalyze hdistinct
  cases hsettled with
  | own hown => exact absurd hown hother
  | other _ _ hrecorded => exact hrecorded hset

/-- Nothing is recorded as a duplicate name but a schema whose name belongs to another one. -/
theorem exists_collision {violation : Violation} (h : violation ∈ context.violations)
    (hcode : violation.code = .duplicateName) :
    ∃ view name owner, Claims setting context view name owner ∧ owner.source ≠ view.pointer ∧
      violation = collision setting view name owner.source := by
  obtain ⟨hview, hreports, hbegun, -, hlater⟩ := recordedBy_of_mem hanalyze h
  have hplaced := hview.placed hdistinct (.root _)
  cases hreports with
  | @taken name earlier shape hshape hnamed hname howner hother _ =>
      -- Whoever had the name then has it in the end.
      obtain ⟨_, hentry⟩ := Context.hasEntry_of_lookup howner
      obtain ⟨owner, howned, heq⟩ :=
        (analyze_consistent hanalyze).lookup_eq (hlater.entries _ _ _ hentry)
      refine ⟨_, name, owner, ⟨hplaced, hlater.begun hbegun, ⟨shape, hshape, hnamed⟩, hname,
        howned⟩, heq ▸ hother, ?_⟩
      rw [heq]
      rfl
  | unresolved | circular | tupleItems | anyOf | typeList | enumValues | mapping => cases hcode
  | excluded _ _ hproblem => rcases hproblem with rfl | rfl <;> cases hcode

/-- If all names and pointers are legible, what tells of a schema is its record. -/
theorem Claims.eq_collision (hlegible : ∀ view name owner,
      Claims setting context view name owner → Legible name.value view.pointer)
    (h : Claims setting context view name owner) {violation : Violation}
    (hmem : violation ∈ context.violations) (htells : violation.TellsOf name.value view.pointer) :
    owner.source ≠ view.pointer ∧ violation = collision setting view name owner.source := by
  obtain ⟨hcode, claimed, hmessage⟩ := htells
  obtain ⟨other, otherName, otherOwner, hclaims, hdifferent, rfl⟩ :=
    exists_collision hanalyze hdistinct hmem hcode
  obtain ⟨-, heq, -⟩ :=
    Problem.duplicateName_inj (hlegible _ _ _ hclaims) (hlegible _ _ _ h) hmessage
  obtain rfl := hclaims.placed.eq_of_pointer h.placed heq
  obtain ⟨rfl, rfl⟩ := h.unique hclaims
  exact ⟨hdifferent, rfl⟩

end Whole

/-- Suppose that a text without repeated keys is converted, and duplicate names are reported.
Every named schema that was converted has a name, which belongs to the schema that claimed it
first. If that is another schema, there is one record of that, as an error. All records of
duplicate names are of this kind. If all names and pointers are legible, no other record has the
name and the pointer of a schema in its message. -/
theorem name_collisions_recorded {text : String} {outcome : Outcome}
    (hread : Json.read text = .ok setting.document) (hdistinct : DistinctKeys setting.document)
    (houtcome : convertText text setting.sourcePath setting.options = .ok outcome)
    (hset : setting.options.reportDuplicateNames = true) :
    (∀ view, Placed setting.document view → (analyze setting).2.Begun view.pointer →
      Named view → ∃ name owner, Claims setting (analyze setting).2 view name owner ∧
        ClaimedFirst setting (analyze setting).2 name.value owner.source) ∧
    (∀ view name owner, Claims setting (analyze setting).2 view name owner →
      owner.source ≠ view.pointer →
        outcome.violations.count (collision setting view name owner.source) = 1) ∧
    (∀ violation ∈ outcome.violations, violation.code = .duplicateName →
      violation.severity = .error ∧
        ∃ view name owner, Claims setting (analyze setting).2 view name owner ∧
          owner.source ≠ view.pointer ∧ violation = collision setting view name owner.source) ∧
    ((∀ view name owner, Claims setting (analyze setting).2 view name owner →
        Legible name.value view.pointer) →
      ∀ view name owner, Claims setting (analyze setting).2 view name owner →
        ∀ violation ∈ outcome.violations, violation.TellsOf name.value view.pointer →
          owner.source ≠ view.pointer ∧
            violation = collision setting view name owner.source) := by
  obtain ⟨document, converted, context, label, hdocument, hanalyze, rfl⟩ :=
    convertText_eq_ok houtcome
  obtain rfl := Except.ok.inj (hdocument.symm.trans hread)
  change analyze setting = _ at hanalyze
  rw [hanalyze]
  refine ⟨?_, ?_, ?_, ?_⟩
  · intro view hplaced hbegun hnamed
    obtain ⟨name, owner, hclaims, -⟩ := exists_claims hanalyze hdistinct hplaced hbegun hnamed
    exact ⟨name, owner, hclaims, hclaims.claimedFirst hanalyze hdistinct⟩
  · intro view name owner hclaims hother
    exact List.count_eq_one_of_mem (analyze_nodup hanalyze)
      (hclaims.collision_mem hanalyze hdistinct hset hother)
  · intro violation hmem hcode
    obtain ⟨view, name, owner, hclaims, hother, rfl⟩ :=
      exists_collision hanalyze hdistinct hmem hcode
    exact ⟨rfl, view, name, owner, hclaims, hother, rfl⟩
  · intro hlegible view name owner hclaims violation hmem htells
    exact hclaims.eq_collision hanalyze hdistinct hlegible hmem htells

namespace Twins

/-- Two definitions of objects with one title. -/
def text : String :=
  "\x7b\"$defs\":\x7b\"A\":\x7b\"title\":\"T\",\"type\":\"object\"\x7d," ++
    "\"B\":\x7b\"title\":\"T\",\"type\":\"object\"\x7d\x7d\x7d"

/-- An object schema that begins at an offset. -/
def twin (first : Int) : Json.Node :=
  .object (.inFirstLine first (first + 29))
    [⟨⟨"title", "\"title\"", .inFirstLine (first + 1) (first + 8)⟩,
        .scalar (.inFirstLine (first + 9) (first + 12)) (.string "T") "\"T\""⟩,
      ⟨⟨"type", "\"type\"", .inFirstLine (first + 13) (first + 19)⟩,
        .scalar (.inFirstLine (first + 20) (first + 28)) (.string "object") "\"object\""⟩]

def first : View :=
  ⟨twin 14, "#/$defs/A"⟩

def second : View :=
  ⟨twin 48, "#/$defs/B"⟩

def sample : Setting where
  document :=
    .object (.inFirstLine 0 79) [⟨⟨"$defs", "\"$defs\"", .inFirstLine 1 8⟩,
      .object (.inFirstLine 9 78)
        [⟨⟨"A", "\"A\"", .inFirstLine 10 13⟩, first.node⟩,
          ⟨⟨"B", "\"B\"", .inFirstLine 44 47⟩, second.node⟩]⟩]
  sourcePath := ""
  options := {}

theorem read_text : Json.read text = .ok sample.document := by
  cbv

theorem exists_outcome : ∃ outcome, convertText text "" = .ok outcome := by
  have hsome : ((outcome sample).1.map fun _ => ()) = .ok () := by decide +kernel
  obtain ⟨found, hfound, -⟩ := exists_convertText read_text hsome
  exact ⟨found, hfound⟩

theorem exists_owner : ∃ owner : Entry, (analyze sample).2.lookup "T" = some owner ∧
    owner.source = first.pointer := by
  have hsource : ((analyze sample).2.lookup "T").map Entry.source = some first.pointer := by
    decide +kernel
  exact Option.map_eq_some_iff.mp hsource

/-- The name of a twin, with the range of its title. -/
def title (view : View) : Label :=
  ⟨"T", view.child? "title" |>.map View.code⟩

theorem claims {view : View} (hview : view ∈ [first, second]) {owner : Entry}
    (howner : (analyze sample).2.lookup "T" = some owner) :
    Claims sample (analyze sample).2 view (title view) owner := by
  have hfirst : resolve sample.document "#/$defs/A" = .ok (some first) := rfl
  have hsecond : resolve sample.document "#/$defs/B" = .ok (some second) := rfl
  rcases List.mem_pair.mp hview with rfl | rfl
  · exact ⟨.of_resolve hfirst, ⟨.object, by decide +kernel⟩, ⟨.object, rfl, rfl⟩, rfl, howner⟩
  · exact ⟨.of_resolve hsecond, ⟨.object, by decide +kernel⟩, ⟨.object, rfl, rfl⟩, rfl, howner⟩

theorem legible {view : View} {name : Label} {owner : Entry}
    (h : Claims sample (analyze sample).2 view name owner) : Legible name.value view.pointer := by
  have hnames : (analyze sample).2.names = (["T"] : List Str) := by decide +kernel
  have hpointers : ((analyze sample).2.log.all fun event => match event with
      | .parsing pointer _ => ¬ Str.ofString " is already used by" <:+: pointer
      | _ => true) = true := by decide +kernel
  constructor
  · have hname : name.value ∈ (analyze sample).2.names :=
      Context.mem_names_iff.mpr (by simp [h.owned])
    rw [hnames, List.mem_singleton] at hname
    rw [hname]
    decide
  · obtain ⟨shape, hbegun⟩ := h.begun
    exact of_decide_eq_true (List.all_eq_true.mp hpointers _ hbegun)

/-- The first twin has the name. The second one is recorded once, and the first one not at
all. -/
theorem name_collisions_recorded_once : ∃ outcome owner,
    convertText text "" = .ok outcome ∧
      Claims sample (analyze sample).2 first (title first) owner ∧
      Claims sample (analyze sample).2 second (title second) owner ∧
      ClaimedFirst sample (analyze sample).2 "T" first.pointer ∧
      outcome.violations.count (collision sample second (title second) first.pointer) = 1 ∧
      (∀ violation ∈ outcome.violations, ¬ violation.TellsOf "T" first.pointer) ∧
      ∀ violation ∈ outcome.violations, violation.code = .duplicateName →
        violation.severity = .error := by
  obtain ⟨outcome, houtcome⟩ := exists_outcome
  obtain ⟨owner, howner, hsource⟩ := exists_owner
  have hfirst := claims (List.mem_cons_self) howner
  have hsecond := claims (List.mem_cons_of_mem first (List.mem_singleton_self second)) howner
  have hdistinct : DistinctKeys sample.document := by decide +kernel
  obtain ⟨hclaimed, hcount, hall, hlone⟩ :=
    name_collisions_recorded read_text hdistinct houtcome rfl
  refine ⟨outcome, owner, houtcome, hfirst, hsecond, ?_, ?_, ?_, ?_⟩
  · obtain ⟨name, other, hclaims, hbefore⟩ :=
      hclaimed _ hfirst.placed hfirst.begun hfirst.named
    obtain ⟨rfl, rfl⟩ := hclaims.unique hfirst
    exact hsource ▸ hbefore
  · rw [← hsource]
    exact hcount _ _ _ hsecond (by rw [hsource]; decide)
  · intro violation hmem htells
    exact (hlone (fun _ _ _ => legible) _ _ _ hfirst _ hmem htells).1 hsource
  · intro violation hmem hcode
    exact (hall _ hmem hcode).1

end Twins

end Schemata.Analysis
