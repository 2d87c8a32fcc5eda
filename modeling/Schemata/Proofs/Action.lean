import Schemata.Analysis.Context

/-!
# Runs of actions

What an action does from a state, told by what holds when it returns and by what
holds when it fails. The rules take an action apart along the sequence of its steps.
-/

namespace Schemata.Analysis.Action

variable {α β : Type}

/-- From `before`, the action returns with `returned` or fails with `failed`. -/
def Ensures (action : Action α) (before : Context) (returned : α → Context → Prop)
    (failed : Failure → Context → Prop) : Prop :=
  match action.run.run before with
  | (.ok value, after) => returned value after
  | (.error failure, after) => failed failure after

/-- From `before`, the action returns a value and leaves the state `after`. -/
def Returns (action : Action α) (before : Context) (value : α) (after : Context) : Prop :=
  action.run.run before = (.ok value, after)

theorem Ensures.imp {action : Action α} {before : Context}
    {returned returned' : α → Context → Prop} {failed failed' : Failure → Context → Prop}
    (h : action.Ensures before returned failed)
    (hreturned : ∀ value after, returned value after → returned' value after)
    (hfailed : ∀ failure after, failed failure after → failed' failure after) :
    action.Ensures before returned' failed' := by
  unfold Ensures at h ⊢
  split
  next value after hrun =>
    rw [hrun] at h
    exact hreturned value after h
  next failure after hrun =>
    rw [hrun] at h
    exact hfailed failure after h

theorem Ensures.and {action : Action α} {before : Context}
    {returned returned' : α → Context → Prop} {failed failed' : Failure → Context → Prop}
    (h : action.Ensures before returned failed) (h' : action.Ensures before returned' failed') :
    action.Ensures before (fun value after => returned value after ∧ returned' value after)
      fun failure after => failed failure after ∧ failed' failure after := by
  unfold Ensures at h h' ⊢
  split
  next value after hrun =>
    rw [hrun] at h h'
    exact ⟨h, h'⟩
  next failure after hrun =>
    rw [hrun] at h h'
    exact ⟨h, h'⟩

theorem ensures_returns (action : Action α) (before : Context) :
    action.Ensures before (action.Returns before) fun _ _ => True := by
  unfold Ensures
  split
  next value after hrun => exact hrun
  next => trivial

theorem Ensures.of_returns {action : Action α} {before after : Context} {value : α}
    {returned : α → Context → Prop} {failed : Failure → Context → Prop}
    (h : action.Ensures before returned failed) (hreturns : action.Returns before value after) :
    returned value after := by
  unfold Ensures at h
  rw [hreturns] at h
  exact h

theorem Ensures.ended {action : Action α} {before : Context} {ended : Context → Prop}
    (h : action.Ensures before (fun _ after => ended after) fun _ after => ended after) :
    ended (action.run.run before).2 := by
  unfold Ensures at h
  split at h
  all_goals next hrun => simpa [hrun] using h

/-- An action leads from one state to another, and returns there if it has to. -/
def Leads (action : Action α) (returning : Bool) (before after : Context) : Prop :=
  after = (action.run.run before).2 ∧
    (returning = true → ∃ value, action.Returns before value after)

theorem Returns.leads {action : Action α} {before after : Context} {value : α}
    (h : action.Returns before value after) (returning : Bool) :
    action.Leads returning before after :=
  ⟨by rw [h], fun _ => ⟨value, h⟩⟩

theorem run_bind (action : Action β) (next : β → Action α) (before : Context) :
    (action >>= next).run.run before =
      match action.run.run before with
      | (.ok value, middle) => (next value).run.run middle
      | (.error failure, after) => (.error failure, after) := by
  simp only [ExceptT.run_bind, StateT.run_bind]
  rcases action.run.run before with ⟨value | failure, after⟩
  all_goals rfl

theorem Returns.bind {action : Action β} {next : β → Action α} {before middle after : Context}
    {found : β} {value : α} (haction : action.Returns before found middle)
    (hnext : (next found).Returns middle value after) :
    (action >>= next).Returns before value after := by
  unfold Returns at haction ⊢
  rw [run_bind, haction]
  exact hnext

/-- An action leads somewhere whatever its outcome, and has a reason to be too deep. -/
theorem ensures_leads {action : Action α} {before : Context} {deep : Prop}
    (hdeep : (action.run.run before).1 = .error .tooDeep → deep) :
    action.Ensures before (action.Returns before) fun failure after =>
      action.Leads false before after ∧ (failure = .tooDeep → deep) := by
  unfold Ensures
  split
  next value after hrun => exact hrun
  next failure after hrun =>
    refine ⟨⟨by rw [hrun], nofun⟩, ?_⟩
    rintro rfl
    exact hdeep (by rw [hrun])

/-- What an action does with a pointer on the chain, it does from that chain. -/
theorem run_within (pointer : Pointer) (action : Action α) (before : Context) :
    (within pointer action).run.run before =
      ((action.run.run (before.enter pointer)).1,
        (action.run.run (before.enter pointer)).2.leave) :=
  rfl

section Rules

variable {before : Context} {returned : α → Context → Prop} {failed : Failure → Context → Prop}

@[simp] theorem ensures_pure (value : α) :
    (pure value : Action α).Ensures before returned failed ↔ returned value before :=
  Iff.rfl

@[simp] theorem ensures_throw (failure : Failure) :
    (throw failure : Action α).Ensures before returned failed ↔ failed failure before :=
  Iff.rfl

@[simp] theorem ensures_bind {action : Action β} {next : β → Action α} :
    (action >>= next).Ensures before returned failed ↔
      action.Ensures before (fun value after => (next value).Ensures after returned failed)
        failed := by
  simp only [Ensures, ExceptT.run_bind, StateT.run_bind]
  rcases hrun : action.run.run before with ⟨value | failure, after⟩
  all_goals simp only []; rfl

@[simp] theorem ensures_lift {result : Except Failure α} :
    (liftM result : Action α).Ensures before returned failed ↔
      (∀ value, result = .ok value → returned value before) ∧
        ∀ failure, result = .error failure → failed failure before := by
  cases result with
  | ok value =>
      exact ⟨fun h => ⟨fun _ heq => (Except.ok.inj heq) ▸ h, nofun⟩, fun h => h.1 value rfl⟩
  | error failure =>
      exact ⟨fun h => ⟨nofun, fun _ heq => (Except.error.inj heq) ▸ h⟩, fun h => h.2 failure rfl⟩

theorem ensures_get {returned : Context → Context → Prop} :
    (get : Action Context).Ensures before returned failed ↔ returned before before :=
  Iff.rfl

theorem returns_get {next : Context → Action α} {value : α} {after : Context} :
    (get >>= next).Returns before value after ↔ (next before).Returns before value after :=
  Iff.rfl

theorem ensures_modify {change : Context → Context} {returned : Unit → Context → Prop} :
    (modify change : Action Unit).Ensures before returned failed ↔
      returned () (change before) :=
  Iff.rfl

theorem ensures_note {event : Event} {returned : Unit → Context → Prop} :
    (note event).Ensures before returned failed ↔ returned () (before.note event) :=
  Iff.rfl

theorem ensures_within {pointer : Pointer} {action : Action α} :
    (within pointer action).Ensures before returned failed ↔
      action.Ensures (before.enter pointer) (fun value after => returned value after.leave)
        fun failure after => failed failure after.leave := by
  rw [Ensures, Ensures, run_within]
  rcases action.run.run (before.enter pointer) with ⟨value | failure, after⟩
  all_goals exact Iff.rfl

end Rules

end Schemata.Analysis.Action
