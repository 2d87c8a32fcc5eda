import Schemata.Proofs.Results

/-!
# The members of a union

The members of a union are sorted by the types that they came to. Those that fit are what
the union consists of, in their order. Of each other one there is a violation, and of none
that fits.
-/

namespace Schemata.Analysis

open Schema Source

/-- What is wrong with a member of a union that does not fit. -/
def exclusion (view : View) : Problem :=
  if (discriminatorOf? view).isSome then .primitiveDiscriminated else .mixedUnion

/-- Whether a type fits into a union of the given members. What is told apart by a property
must not be primitive. Otherwise, all members are of the category of the first one. -/
def fits (view : View) (found : List Alternative) (type : ValueType) : Bool :=
  match discriminatorOf? view, found with
  | some _, _ => !type.isPrimitive
  | none, [] => false
  | none, first :: _ => type.isPrimitive == first.type.isPrimitive

/-- The kind of a union of the given members. -/
def unionKind (view : View) (found : List Alternative) : UnionKind :=
  match discriminatorOf? view, found with
  | some _, _ => .discriminated
  | none, [] => .simple
  | none, first :: _ => if first.type.isPrimitive then .primitive else .complex

/-- What a union of the given members consists of. -/
def classified (view : View) (found : List Alternative) : UnionBody where
  kind := unionKind view found
  members := (found.map Alternative.type).filter (fits view found)
  discriminator := discriminatorOf? view

/-- The record of a member that does not fit. -/
def Alternative.violation (setting : Setting) (problem : Problem) (member : Alternative) :
    Violation :=
  problem.violation (some member.view.code) setting.sourcePath

/-- Between two states, every member that does not fit was recorded, and nothing else but
what is expected. -/
structure Excludes (setting : Setting) (problem : Problem) (fits : ValueType → Bool)
    (found : List Alternative) (expected : Violation → Prop) (before after : Context) : Prop where
  grows : before.Grows after
  told : ∀ member ∈ found, fits member.type = false →
    member.violation setting problem ∈ after.violations
  only : ∀ violation ∈ after.violations, violation ∈ before.violations ∨ expected violation ∨
    ∃ member ∈ found, fits member.type = false ∧ violation = member.violation setting problem

variable {setting : Setting} {convert : Converter} {view : View} {before : Context}

namespace Excludes

variable {problem : Problem} {fits : ValueType → Bool} {expected : Violation → Prop}
  {first : Alternative} {rest : List Alternative} {after : Context}

/-- Without members there is nothing to record. -/
theorem empty : Excludes setting problem fits [] expected before before where
  grows := .refl before
  told _ hmember := absurd hmember List.not_mem_nil
  only _ := .inl

theorem keep (h : Excludes setting problem fits rest expected before after)
    (hfits : fits first.type = true) :
    Excludes setting problem fits (first :: rest) expected before after := by
  refine ⟨h.grows, ?_, ?_⟩
  · intro member hmember hunfit
    rcases List.mem_cons.mp hmember with rfl | hrest
    · exact absurd (hfits.symm.trans hunfit) nofun
    · exact h.told member hrest hunfit
  · intro violation hviolation
    refine (h.only violation hviolation).imp_right (.imp_right ?_)
    rintro ⟨member, hmember, hunfit⟩
    exact ⟨member, List.mem_cons_of_mem _ hmember, hunfit⟩

theorem leaveOut
    (h : Excludes setting problem fits rest expected
      (before.record (first.violation setting problem)) after)
    (hunfit : fits first.type = false) :
    Excludes setting problem fits (first :: rest) expected before after := by
  refine ⟨(Context.Extends.record _ _).grows.trans h.grows, ?_, ?_⟩
  · intro member hmember hmemberUnfit
    rcases List.mem_cons.mp hmember with rfl | hrest
    · exact h.grows.violations.subset (Context.mem_violations_record _ _)
    · exact h.told member hrest hmemberUnfit
  · intro violation hviolation
    rcases h.only violation hviolation with hstart | hexpected | ⟨member, hmember, hother⟩
    · rcases Context.mem_violations_of_record hstart with hbefore | rfl
      · exact .inl hbefore
      · exact .inr (.inr ⟨first, List.mem_cons_self, hunfit, rfl⟩)
    · exact .inr (.inl hexpected)
    · exact .inr (.inr ⟨member, List.mem_cons_of_mem _ hmember, hother⟩)

end Excludes

theorem ensures_keep (fits : ValueType → Bool) (problem : Problem) (found : List Alternative) :
    (keep setting fits problem found).Ensures before (fun kept after =>
      kept = (found.map Alternative.type).filter fits ∧
        Excludes setting problem fits found (fun _ => False) before after) fun _ _ => False := by
  induction found generalizing before with
  | nil =>
      rw [keep, Action.ensures_pure]
      exact ⟨rfl, .empty⟩
  | cons first rest ih =>
      unfold keep
      split
      next hfits =>
        rw [Action.ensures_bind]
        refine Action.Ensures.imp ih ?_ fun _ _ h => h
        rintro others after ⟨rfl, hrest⟩
        exact ⟨by simp [hfits], hrest.keep hfits⟩
      next hunfit =>
        have hleft : fits first.type = false := by simpa using hunfit
        rw [Action.ensures_bind, Action.report, Action.ensures_modify]
        refine Action.Ensures.imp ih ?_ fun _ _ h => h
        rintro others after ⟨rfl, hrest⟩
        exact ⟨by simp [hleft], .leaveOut hrest hleft⟩

/-- The mapping of a discriminator, which has no effect. -/
def mapping? (view : View) : Option View :=
  view.discriminator?.bind (·.child? "mapping")

/-- From one state to the other, the members of a union were classified. -/
abbrev Classifies (setting : Setting) (view : View) (found : List Alternative) :
    Context → Context → Prop :=
  Excludes setting (exclusion view) (fits view found) found fun violation =>
    ∃ mapping, mapping? view = some mapping ∧
      violation = Problem.discriminatorMapping.violation (some mapping.code) setting.sourcePath

/-- Classification goes on from the state after the mapping was looked at. -/
theorem ensures_classify {found : List Alternative} {middle : Context}
    (hgrows : middle.Grows before)
    (honly : ∀ violation ∈ before.violations, violation ∈ middle.violations ∨
      ∃ mapping, mapping? view = some mapping ∧
        violation = Problem.discriminatorMapping.violation (some mapping.code) setting.sourcePath) :
    Action.Ensures (do
        let kept ← keep setting (fits view found) (exclusion view) found
        return ⟨unionKind view found, kept, discriminatorOf? view⟩) before
      (fun body after => body = classified view found ∧
        Classifies setting view found middle after) fun _ _ => True := by
  rw [Action.ensures_bind]
  refine (ensures_keep _ _ found).imp ?_ fun _ _ _ => trivial
  rintro kept after ⟨rfl, hkept⟩
  refine ⟨rfl, hgrows.trans hkept.grows, hkept.told, fun violation hviolation => ?_⟩
  rcases hkept.only violation hviolation with hbefore | hnone | hexcluded
  · exact (honly violation hbefore).imp_right .inl
  · exact hnone.elim
  · exact .inr (.inr hexcluded)

/-- A union consists of what its members came to, once all of them were converted. -/
theorem ensures_unionBody :
    (unionBody setting convert view).Ensures before (fun body after => ∃ found middle,
      (alternatives convert (view.oneOf?.getD [])).Returns before found middle ∧
        body = classified view found ∧ Classifies setting view found middle after)
      fun _ _ => True := by
  rw [unionBody, Action.ensures_bind]
  refine (Action.ensures_returns _ before).imp (fun found middle hreturns => ?_) fun _ _ h => h
  have hclassify := fun current => @ensures_classify setting view current found middle
  have hreturned : ∀ {action : Action UnionBody} {current : Context},
      action.Ensures current (fun body after => body = classified view found ∧
        Classifies setting view found middle after) (fun _ _ => True) →
      action.Ensures current (fun body after => ∃ found middle,
        (alternatives convert (view.oneOf?.getD [])).Returns before found middle ∧
          body = classified view found ∧ Classifies setting view found middle after)
        fun _ _ => True :=
    fun h => h.imp (fun _ _ hbody => ⟨found, middle, hreturns, hbody⟩) fun _ _ h => h
  cases hdiscriminator : discriminatorOf? view with
  | some discriminator =>
      have hfits : fits view found = (!·.isPrimitive) := by
        funext type
        simp [fits, hdiscriminator]
      have hkind : unionKind view found = .discriminated := by simp [unionKind, hdiscriminator]
      have hexclusion : exclusion view = .primitiveDiscriminated := by
        simp [exclusion, hdiscriminator]
      rw [hfits, hkind, hexclusion, hdiscriminator] at hclassify
      dsimp only
      split
      next mapping hmapping =>
        rw [Action.ensures_bind, Action.report, Action.ensures_modify]
        refine hreturned (hclassify _ (Context.Extends.record _ _).grows ?_)
        intro violation hviolation
        exact (Context.mem_violations_of_record hviolation).imp_right fun hadded =>
          ⟨mapping, hmapping, hadded⟩
      next => exact hreturned (hclassify middle (.refl middle) fun _ => .inl)
  | none =>
      have hexclusion : exclusion view = .mixedUnion := by simp [exclusion, hdiscriminator]
      cases found with
      | nil =>
          have hempty : (⟨.simple, [], none⟩ : UnionBody) = classified view [] := by
            simp [classified, unionKind, hdiscriminator]
          refine hreturned ?_
          rw [Action.ensures_pure]
          exact ⟨hempty, .empty⟩
      | cons first rest =>
          have hfits : fits view (first :: rest) = (·.isPrimitive == first.type.isPrimitive) := by
            funext type
            simp [fits, hdiscriminator]
          have hkind : unionKind view (first :: rest) =
              if first.type.isPrimitive then .primitive else .complex := by
            simp [unionKind, hdiscriminator]
          rw [hfits, hkind, hexclusion, hdiscriminator] at hclassify
          exact hreturned (hclassify middle (.refl middle) fun _ => .inl)

end Schemata.Analysis
