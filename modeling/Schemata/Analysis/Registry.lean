import Schemata.Text.Str

/-!
# Registries

A registry holds values under names, in the order in which the names were first
given. Under one name there is one value.
-/

namespace Schemata.Analysis

/-- Values under names. No name occurs twice. -/
structure Registry (α : Type) where
  entries : List (Str × α) := []
  nodup : (entries.map Prod.fst).Nodup := by exact List.nodup_nil

namespace Registry

variable {α : Type}

def names (registry : Registry α) : List Str :=
  registry.entries.map Prod.fst

def values (registry : Registry α) : List α :=
  registry.entries.map Prod.snd

/-- The value under a name. -/
def get? (registry : Registry α) (name : Str) : Option α :=
  (registry.entries.find? (·.1 = name)).map Prod.snd

/-- The entries with a changed value under a name. -/
def changed (entries : List (Str × α)) (name : Str) (change : α → α) :
    List (Str × α) :=
  entries.map fun entry => if entry.1 = name then (entry.1, change entry.2) else entry

@[simp] theorem map_fst_changed (entries : List (Str × α)) (name : Str)
    (change : α → α) : (changed entries name change).map Prod.fst = entries.map Prod.fst := by
  rw [changed, List.map_map]
  refine List.map_congr_left fun entry _ => ?_
  simp only [Function.comp_apply]
  split <;> rfl

theorem changed_of_not_mem {entries : List (Str × α)} {name : Str}
    {change : α → α} (hname : name ∉ entries.map Prod.fst) :
    changed entries name change = entries := by
  have hself : ∀ entry ∈ entries,
      (if entry.1 = name then (entry.1, change entry.2) else entry) = id entry :=
    fun entry hentry => if_neg fun heq => hname (List.mem_map.mpr ⟨entry, hentry, heq⟩)
  rw [changed, List.map_congr_left hself, List.map_id]

/-- Change the value under a name, if there is one. -/
def modify (registry : Registry α) (name : Str) (change : α → α) : Registry α :=
  ⟨changed registry.entries name change, by simpa using registry.nodup⟩

theorem nodup_append_new {registry : Registry α} {name : Str} (value : α)
    (hnew : name ∉ registry.names) :
    ((registry.entries ++ [(name, value)]).map Prod.fst).Nodup := by
  rw [List.map_append, List.nodup_append]
  refine ⟨registry.nodup, by simp, ?_⟩
  intro taken htaken other hother heq
  obtain rfl : other = name := by simpa using hother
  exact hnew (heq ▸ htaken)

/-- Put a value under a name. It takes the place of a value that is there. -/
def insert (registry : Registry α) (name : Str) (value : α) : Registry α :=
  if htaken : name ∈ registry.names then registry.modify name fun _ => value
  else ⟨registry.entries ++ [(name, value)], nodup_append_new value htaken⟩

@[simp] theorem names_modify (registry : Registry α) (name : Str) (change : α → α) :
    (registry.modify name change).names = registry.names :=
  map_fst_changed registry.entries name change

theorem mem_names_iff {registry : Registry α} {name : Str} :
    name ∈ registry.names ↔ ∃ value, (name, value) ∈ registry.entries := by
  simp [names]

theorem entries_insert {registry : Registry α} {name : Str} (value : α)
    (hnew : name ∉ registry.names) :
    (registry.insert name value).entries = registry.entries ++ [(name, value)] := by
  rw [insert, dif_neg hnew]

theorem names_insert {registry : Registry α} {name : Str} (value : α)
    (hnew : name ∉ registry.names) :
    (registry.insert name value).names = registry.names ++ [name] := by
  rw [names, entries_insert value hnew, List.map_append]
  rfl

theorem mem_names_insert (registry : Registry α) (name : Str) (value : α) :
    name ∈ (registry.insert name value).names := by
  unfold insert
  split
  next htaken => rwa [names_modify]
  next => simp [names]

/-- A change under a new name leaves the entries that were there before. -/
theorem prefix_entries_modify {before after : Registry α} {name : Str} {change : α → α}
    (hnew : name ∉ before.names) (h : before.entries <+: after.entries) :
    before.entries <+: (after.modify name change).entries := by
  obtain ⟨rest, hrest⟩ := h
  refine ⟨changed rest name change, ?_⟩
  calc before.entries ++ changed rest name change
      = changed before.entries name change ++ changed rest name change := by
        rw [changed_of_not_mem hnew]
    _ = changed after.entries name change := by rw [← hrest, changed, changed, changed,
        List.map_append]

theorem mem_entries_modify {registry : Registry α} {name : Str} {change : α → α}
    {entry : Str × α} : entry ∈ (registry.modify name change).entries ↔
      ∃ old, (entry.1, old) ∈ registry.entries ∧
        entry.2 = if entry.1 = name then change old else old := by
  simp only [modify, changed, List.mem_map]
  constructor
  · rintro ⟨⟨key, old⟩, hold, rfl⟩
    by_cases hname : key = name
    · exact ⟨old, by simpa [hname] using hold, by simp [hname]⟩
    · exact ⟨old, by simpa [hname] using hold, by simp [hname]⟩
  · rintro ⟨old, hold, hvalue⟩
    refine ⟨(entry.1, old), hold, ?_⟩
    by_cases hname : entry.1 = name
    · simp_all [Prod.ext_iff]
    · simp_all [Prod.ext_iff]

/-- What becomes of an entry by a change under a name. -/
theorem mem_modify {registry : Registry α} {key name : Str} {value : α} {change : α → α}
    (hentry : (key, value) ∈ registry.entries) :
    (key, if key = name then change value else value) ∈
      (registry.modify name change).entries :=
  mem_entries_modify.mpr ⟨value, hentry, rfl⟩

theorem get?_eq_none_iff {registry : Registry α} {name : Str} :
    registry.get? name = none ↔ name ∉ registry.names := by
  simp only [get?, names, Option.map_eq_none_iff, List.find?_eq_none, List.mem_map,
    decide_eq_true_eq]
  exact ⟨fun hnone ⟨entry, hentry, hname⟩ => hnone entry hentry hname,
    fun hnone entry hentry hname => hnone ⟨entry, hentry, hname⟩⟩

/-- The value found under a name is the one that stands there. -/
theorem get?_eq_some_iff {registry : Registry α} {name : Str} {value : α} :
    registry.get? name = some value ↔ (name, value) ∈ registry.entries := by
  obtain ⟨entries, hnodup⟩ := registry
  simp only [get?]
  induction entries with
  | nil => simp
  | cons entry rest ih =>
      obtain ⟨key, held⟩ := entry
      rw [List.map_cons] at hnodup
      obtain ⟨hkey, hrest⟩ := List.nodup_cons.mp hnodup
      by_cases hname : key = name
      · subst hname
        have hmiss : (key, value) ∉ rest := fun hmem =>
          hkey (List.mem_map.mpr ⟨(key, value), hmem, rfl⟩)
        simp [hmiss, eq_comm]
      · rw [List.find?_cons_of_neg (by simpa using hname), ih hrest]
        simp [Ne.symm hname]

/-- A change under another name is not seen. -/
theorem get?_modify_of_ne {registry : Registry α} {name key : Str} {change : α → α}
    (hname : name ≠ key) : (registry.modify key change).get? name = registry.get? name := by
  refine Option.ext fun value => ?_
  rw [get?_eq_some_iff, get?_eq_some_iff, mem_entries_modify]
  simp [hname]

theorem get?_insert_of_ne {registry : Registry α} {name key : Str} {value : α}
    (hnew : key ∉ registry.names) (hname : name ≠ key) :
    (registry.insert key value).get? name = registry.get? name := by
  refine Option.ext fun found => ?_
  rw [get?_eq_some_iff, get?_eq_some_iff, entries_insert value hnew]
  simp [hname]

theorem get?_insert_self {registry : Registry α} {key : Str} {value : α}
    (hnew : key ∉ registry.names) : (registry.insert key value).get? key = some value := by
  rw [get?_eq_some_iff, entries_insert value hnew]
  exact List.mem_append_right _ List.mem_cons_self

/-- All entries have a property. -/
def All (registry : Registry α) (holds : Str → α → Prop) : Prop :=
  ∀ key value, (key, value) ∈ registry.entries → holds key value

theorem All.imp {registry : Registry α} {holds holds' : Str → α → Prop}
    (h : registry.All holds) (himp : ∀ key value, holds key value → holds' key value) :
    registry.All holds' := fun key value hentry => himp key value (h key value hentry)

theorem All.modify {registry : Registry α} {holds : Str → α → Prop} {name : Str}
    {change : α → α} (h : registry.All holds)
    (hchange : ∀ value, holds name value → holds name (change value)) :
    (registry.modify name change).All holds := by
  intro key value hentry
  obtain ⟨old, hold, hvalue⟩ := mem_entries_modify.mp hentry
  have hbefore := h key old hold
  dsimp only at hvalue
  rw [hvalue]
  split
  next hname =>
    rw [hname] at hbefore ⊢
    exact hchange old hbefore
  next => exact hbefore

theorem All.insert {registry : Registry α} {holds : Str → α → Prop} {name : Str}
    {value : α} (h : registry.All holds) (hvalue : holds name value) :
    (registry.insert name value).All holds := by
  by_cases htaken : name ∈ registry.names
  · rw [Registry.insert, dif_pos htaken]
    exact h.modify fun _ _ => hvalue
  · intro key other hentry
    rw [entries_insert value htaken, List.mem_append, List.mem_singleton] at hentry
    rcases hentry with hold | hadded
    · exact h key other hold
    · obtain ⟨rfl, rfl⟩ := Prod.mk.inj hadded
      exact hvalue

/-- There is an entry of the given name from which something is read. -/
def Has {β : Type} (registry : Registry α) (read : α → β) (name : Str) (found : β) : Prop :=
  ∃ value, (name, value) ∈ registry.entries ∧ read value = found

section Has

variable {β : Type} {registry : Registry α} {read : α → β} {name key : Str} {found : β}

theorem mem_names_iff_has : name ∈ registry.names ↔ ∃ found, registry.Has read name found := by
  rw [mem_names_iff]
  exact ⟨fun ⟨value, hvalue⟩ => ⟨read value, value, hvalue, rfl⟩,
    fun ⟨_, value, hvalue, _⟩ => ⟨value, hvalue⟩⟩

theorem has_insert_iff {value : α} (hnew : key ∉ registry.names) :
    (registry.insert key value).Has read name found ↔
      registry.Has read name found ∨ name = key ∧ found = read value := by
  unfold Has
  rw [entries_insert value hnew]
  constructor
  · rintro ⟨other, hother, rfl⟩
    rcases List.mem_append.mp hother with hold | hadded
    · exact .inl ⟨other, hold, rfl⟩
    · obtain ⟨rfl, rfl⟩ := Prod.mk.inj (List.mem_singleton.mp hadded)
      exact .inr ⟨rfl, rfl⟩
  · rintro (⟨other, hold, hread⟩ | ⟨rfl, rfl⟩)
    · exact ⟨other, List.mem_append_left _ hold, hread⟩
    · exact ⟨value, List.mem_append_right _ List.mem_cons_self, rfl⟩

/-- A change that leaves what is read leaves the entries it is read from. -/
theorem has_modify_iff {change : α → α} (hread : ∀ value, read (change value) = read value) :
    (registry.modify key change).Has read name found ↔ registry.Has read name found := by
  unfold Has
  constructor
  · rintro ⟨value, hvalue, rfl⟩
    obtain ⟨old, hold, hchanged⟩ := mem_entries_modify.mp hvalue
    refine ⟨old, hold, ?_⟩
    dsimp only at hchanged
    rw [hchanged]
    split
    · exact (hread old).symm
    · rfl
  · rintro ⟨old, hold, rfl⟩
    refine ⟨_, mem_modify hold, ?_⟩
    split
    · exact hread old
    · rfl

theorem has_iff : registry.Has read name found ↔ (registry.get? name).map read = some found := by
  simp only [Has, Option.map_eq_some_iff, get?_eq_some_iff]

/-- A change is not seen in what it leaves. -/
theorem map_get?_modify {change : α → α} (hread : ∀ value, read (change value) = read value) :
    ((registry.modify key change).get? name).map read = (registry.get? name).map read := by
  refine Option.ext fun found => ?_
  rw [← has_iff, ← has_iff]
  exact has_modify_iff hread

end Has

end Registry

end Schemata.Analysis
