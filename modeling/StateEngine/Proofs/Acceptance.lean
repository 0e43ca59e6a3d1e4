import Mathlib.Data.List.Induction
import StateEngine.Proofs.Taking

/-!
# What a build accepts

A configuration is valid if its keys are distinct, its name can be seen, all its states are free to
be taken, and its initial key names a state that can be entered. A build succeeds on the valid
configurations alone. On the others it fails with the first thing that is wrong, and the states that
come before it are taken for a machine that is lost.
-/

namespace StateEngine

variable {ρ : Type}

namespace Builder

/-! ## Keys -/

theorem firstRepeated?_eq_none_iff {seen keys : List Key} :
    firstRepeated? seen keys = none ↔ keys.Nodup ∧ ∀ key ∈ keys, key ∉ seen := by
  induction keys generalizing seen with
  | nil => simp [firstRepeated?]
  | cons key keys ih =>
    by_cases hin : key ∈ seen
    · simp [firstRepeated?, hin]
    · simp only [firstRepeated?, hin, if_false, ih, List.nodup_cons, List.mem_cons, not_or]
      constructor
      · rintro ⟨hnodup, hnew⟩
        exact ⟨⟨fun hk => (hnew key hk).1 rfl, hnodup⟩,
          fun k hk => hk.elim (fun heq => heq ▸ hin) fun hk => (hnew k hk).2⟩
      · rintro ⟨⟨hkey, hnodup⟩, hnew⟩
        exact ⟨hnodup, fun k hk => ⟨fun heq => hkey (heq ▸ hk), hnew k (.inr hk)⟩⟩

/-- The first key of a list that stands earlier in it. -/
def FirstRepeated (keys : List Key) (key : Key) : Prop :=
  ∃ before after, keys = before ++ key :: after ∧ before.Nodup ∧ key ∈ before

theorem firstRepeated?_append {seen before after : List Key} {key : Key} (hnodup : before.Nodup)
    (hnew : ∀ k ∈ before, k ∉ seen) (hin : key ∈ seen ∨ key ∈ before) :
    firstRepeated? seen (before ++ key :: after) = some key := by
  induction before generalizing seen with
  | nil => rw [List.nil_append, firstRepeated?, if_pos (hin.resolve_right List.not_mem_nil)]
  | cons k before ih =>
    obtain ⟨hk, hnodup⟩ := List.nodup_cons.mp hnodup
    obtain ⟨hfirst, hnew⟩ := List.forall_mem_cons.mp hnew
    rw [List.cons_append, firstRepeated?, if_neg hfirst]
    refine ih hnodup (fun j hj hseen => ?_) ?_
    · rcases List.mem_cons.mp hseen with rfl | hseen
      · exact hk hj
      · exact hnew j hj hseen
    · rcases hin with hseen | hbefore
      · exact .inl (List.mem_cons_of_mem k hseen)
      · rcases List.mem_cons.mp hbefore with rfl | hbefore
        · exact .inl List.mem_cons_self
        · exact .inr hbefore

theorem nodup_or_firstRepeated (keys : List Key) :
    keys.Nodup ∨ ∃ key, FirstRepeated keys key := by
  induction keys using List.reverseRecOn with
  | nil => exact .inl List.nodup_nil
  | append_singleton keys last ih =>
    rcases ih with hnodup | ⟨key, before, after, rfl, hbefore, hin⟩
    · by_cases hlast : last ∈ keys
      · exact .inr ⟨last, keys, [], rfl, hnodup, hlast⟩
      · exact .inl (List.nodup_append.mpr ⟨hnodup, List.pairwise_singleton _ last,
          fun a ha b hb heq => hlast (List.mem_singleton.mp hb ▸ heq ▸ ha)⟩)
    · exact .inr ⟨key, before, after ++ [last], by simp, hbefore, hin⟩

/-! ## Outcomes -/

/-- The keys of the states, in the order of registration. -/
def keys (b : Builder) : List Key := b.states.map Handle.key

/-- Holds of a name in which nothing can be seen. -/
def IsUnnamed (b : Builder) : Prop := ∃ name, b.name = some name ∧ Text.allBlank name = true

/-- Why the initial state cannot be entered. -/
inductive Misleads (b : Builder) : Key → MachineError → Prop where
  | unknown {key : Key} : key ∉ b.keys → key ∉ b.kind.builtinKeys →
      Misleads b key (.unknownKey key (b.name.getD Machine.automaticName))
  | fault : Misleads b Key.error (.enterError Key.uninitialized)

/-- What is the first thing wrong with a configuration, and which states come before it. -/
inductive Fails (b : Builder) (store : Store ρ) : BuildError → List Handle → Prop where
  | repeated {key : Key} : FirstRepeated b.keys key → Fails b store (.duplicateKey key) []
  | unnamed : b.keys.Nodup → b.IsUnnamed → Fails b store .emptyName []
  | refused {taken rest : List Handle} {h : Handle} {e : MachineError} : b.keys.Nodup →
      ¬ b.IsUnnamed → b.states = taken ++ h :: rest → (∀ g ∈ taken, store.Grants g) →
      store.Refuses h e → Fails b store (.machine e) taken
  | misled {key : Key} {e : MachineError} : b.keys.Nodup → ¬ b.IsUnnamed →
      (∀ h ∈ b.states, store.Grants h) → b.initial = some key → b.Misleads key e →
      Fails b store (.machine e) b.states

/-- A configuration with which nothing is wrong. -/
structure Valid (b : Builder) (store : Store ρ) : Prop where
  distinct : b.keys.Nodup
  named : ¬ b.IsUnnamed
  granted : ∀ h ∈ b.states, store.Grants h
  leads : ∀ key, b.initial = some key →
    (key ∈ b.keys ∨ key ∈ b.kind.builtinKeys) ∧ key ≠ Key.error

theorem valid_or_fails (b : Builder) (store : Store ρ) :
    b.Valid store ∨ ∃ e taken, b.Fails store e taken := by
  -- The checks in the order in which they are made, each under the success of those before it.
  rcases nodup_or_firstRepeated b.keys with distinct | ⟨key, hkey⟩
  case inr => exact .inr ⟨_, _, .repeated hkey⟩
  by_cases named : b.IsUnnamed
  · exact .inr ⟨_, _, .unnamed distinct named⟩
  rcases store.grants_all_or_refuses b.states with granted | ⟨taken, h, rest, e, hs, hall, hrefuse⟩
  case inr => exact .inr ⟨_, _, .refused distinct named hs hall hrefuse⟩
  cases hi : b.initial with
  | none => exact .inl ⟨distinct, named, granted, by rw [hi]; nofun⟩
  | some key =>
    by_cases hlisted : key ∈ b.keys ∨ key ∈ b.kind.builtinKeys
    · by_cases he : key = Key.error
      · subst he
        exact .inr ⟨_, _, .misled distinct named granted hi .fault⟩
      · refine .inl ⟨distinct, named, granted, fun k hk => ?_⟩
        obtain rfl := Option.some.inj (hi.symm.trans hk)
        exact ⟨hlisted, he⟩
    · obtain ⟨hkey, hbuiltin⟩ := not_or.mp hlisted
      exact .inr ⟨_, _, .misled distinct named granted hi (.unknown hkey hbuiltin)⟩

/-- The site of a build when the given states have been taken. -/
def midway (b : Builder) (store : Store ρ) (id : MachineId) (time : Timestamp)
    (taken : List Handle) : Site ρ :=
  (b.outset store id time).takingAll taken

theorem contains_midway (b : Builder) (store : Store ρ) (id : MachineId) (time : Timestamp)
    (taken : List Handle) (key : Key) :
    (b.midway store id time taken).machine.table.contains key = true ↔
      key ∈ taken.map Handle.key ∨ key ∈ b.kind.builtinKeys :=
  (Site.contains_takingAll _ taken key).trans
    (or_congr_right (Machine.contains_create store id b.kind key))

section
variable {b : Builder} {store : Store ρ} (id : MachineId) (time : Timestamp)

theorem attachAll_outset {taken rest : List Handle} (hs : b.states = taken ++ rest)
    (known : ∀ h ∈ b.states, store.Knows h) (distinct : b.keys.Nodup)
    (granted : ∀ h ∈ taken, store.Grants h) :
    attachAll b.states (b.outset store id time) =
      attachAll rest (b.midway store id time taken) := by
  have hin : ∀ h ∈ taken, h ∈ b.states := fun h hh => hs ▸ List.mem_append_left rest hh
  have hdistinct : (taken.map Handle.key).Nodup := by
    rw [keys, hs, List.map_append] at distinct
    exact (List.nodup_append.mp distinct).1
  rw [hs]
  refine attachAll_append (fun h hh => ?_) hdistinct fun h hh => ?_
  · exact (Machine.grows_create store id b.kind).knows (known h (hin h hh))
  · exact (Store.Grants.congr (Machine.owner?_create id b.kind (known h (hin h hh)))).mpr
      (granted h hh)

/-- During a build the states taken so far belong to the new machine and the others to whom they
belonged. -/
theorem owner?_midway {taken : List Handle} (known : ∀ g ∈ taken, store.Knows g) {h : Handle}
    (hh : store.Knows h) :
    (b.midway store id time taken).store.owner? h =
      if h ∈ taken then some id else store.owner? h := by
  have hgrows := Machine.grows_create store id b.kind
  refine (Site.owner?_takingAll (fun g hg => hgrows.knows (known g hg)) (hgrows.knows hh)).trans ?_
  rw [show (b.outset store id time).store.owner? h = store.owner? h from
    Machine.owner?_create id b.kind hh]
  rfl

end

section
variable {b : Builder} {store : Store ρ} (known : ∀ h ∈ b.states, store.Knows h)
  (distinct : b.keys.Nodup) (granted : ∀ h ∈ b.states, store.Grants h) (id : MachineId)
  (time : Timestamp)
include known distinct granted

theorem attachAll_outset_states :
    attachAll b.states (b.outset store id time) = (.ok (), b.midway store id time b.states) :=
  attachAll_outset id time (List.append_nil b.states).symm known distinct granted

theorem sound_midway : (b.midway store id time b.states).Sound :=
  sound_of_attachAll known (attachAll_outset_states known distinct granted id time)

/-- The initial key is looked up on a machine that has just been made. -/
theorem move_midway (key : Key) :
    (b.midway store id time b.states).move .select (.key key) =
      match (b.midway store id time b.states).machine.table.get? key with
      | none => .error (.unknownKey key (b.name.getD Machine.automaticName))
      | some h =>
        if key = Key.error then .error (.enterError Key.uninitialized)
        else .ok ((b.midway store id time b.states).entered .select h) := by
  have heq := (b.outset store id time).takingAll_eq b.states
  have hprogressed : (b.midway store id time b.states).machine.progressed = false := by
    rw [midway, heq]
    rfl
  have hname : (b.midway store id time b.states).machine.name =
      b.name.getD Machine.automaticName := by
    rw [midway, heq]
    rfl
  have hcurrent : (b.midway store id time b.states).machine.current.key = Key.uninitialized := by
    rw [midway, heq]
    rfl
  have hmove := (sound_midway known distinct granted id time).move_select_eq hprogressed key
  rw [hname, hcurrent] at hmove
  exact hmove

theorem enterInitial_of_misleads {key : Key} {e : MachineError} (hi : b.initial = some key)
    (misled : b.Misleads key e) :
    b.enterInitial (b.midway store id time b.states) =
      (.error e, b.midway store id time b.states) := by
  have hlisted := b.contains_midway store id time b.states key
  simp only [enterInitial, hi, move_midway known distinct granted id time]
  cases misled with
  | unknown hkey hbuiltin =>
    have hnone : ¬ (b.midway store id time b.states).machine.table.contains key = true :=
      fun hc => (hlisted.mp hc).elim hkey hbuiltin
    rw [Table.contains, Option.not_isSome_iff_eq_none] at hnone
    rw [hnone]
    rfl
  | fault =>
    have herror : Key.error ∈ b.kind.builtinKeys := by cases b.kind <;> decide
    obtain ⟨h, hh⟩ := Option.isSome_iff_exists.mp (hlisted.mpr (.inr herror))
    rw [hh]
    rfl

end

section
variable {b : Builder} {store : Store ρ} (id : MachineId) (time : Timestamp)

theorem Valid.enterInitial (valid : b.Valid store) (known : ∀ h ∈ b.states, store.Knows h) :
    ∃ s, b.enterInitial (b.midway store id time b.states) = (.ok (), s) := by
  cases hi : b.initial with
  | none => exact ⟨_, by rw [Builder.enterInitial, hi]⟩
  | some key =>
    obtain ⟨hlisted, hne⟩ := valid.leads key hi
    obtain ⟨h, hh⟩ := Option.isSome_iff_exists.mp
      ((b.contains_midway store id time b.states key).mpr hlisted)
    refine ⟨(b.midway store id time b.states).entered .select h, ?_⟩
    simp only [Builder.enterInitial, hi, move_midway known valid.distinct valid.granted id time, hh,
      if_neg hne, Site.settle]

theorem firstRepeated?_keys (distinct : b.keys.Nodup) :
    firstRepeated? [] (b.states.map Handle.key) = none :=
  firstRepeated?_eq_none_iff.mpr ⟨distinct, fun _ _ => List.not_mem_nil⟩

theorem isUnnamed_iff : b.IsUnnamed ↔ b.name.any Text.allBlank = true := by
  rw [IsUnnamed, Option.any_eq_true]

theorem build_eq_of_named (distinct : b.keys.Nodup) (named : ¬ b.IsUnnamed) :
    b.build store id time =
      match attachAll b.states (b.outset store id time) with
      | (.error e, s) => (.error (.machine e), s.store)
      | (.ok (), s) =>
        match b.enterInitial s with
        | (.error e, s) => (.error (.machine e), s.store)
        | (.ok (), s) => (.ok s.machine, s.store) := by
  rw [build_eq, firstRepeated?_keys distinct]
  exact if_neg (mt isUnnamed_iff.mpr named)

/-- A configuration that fails takes the states before the fault for the machine that is lost. -/
theorem Fails.build_eq {e : BuildError} {taken : List Handle} (fails : b.Fails store e taken)
    (known : ∀ h ∈ b.states, store.Knows h) :
    ∃ after, b.build store id time = (.error e, after) ∧ ∀ h, store.Knows h →
      after.owner? h = if h ∈ taken then some id else store.owner? h := by
  have hnone : ∀ h, store.owner? h = if h ∈ ([] : List Handle) then some id else store.owner? h :=
    fun h => (if_neg List.not_mem_nil).symm
  cases fails with
  | repeated hkey =>
    obtain ⟨before, rest, hkeys, hnodup, hin⟩ := hkey
    have hfirst : firstRepeated? [] (b.states.map Handle.key) = some _ :=
      hkeys ▸ firstRepeated?_append hnodup (fun _ _ => List.not_mem_nil) (.inr hin)
    exact ⟨store, by rw [Builder.build_eq, hfirst], fun h _ => hnone h⟩
  | unnamed distinct hblank =>
    refine ⟨(b.outset store id time).store, ?_, fun h hh => ?_⟩
    · rw [Builder.build_eq, firstRepeated?_keys distinct]
      exact if_pos (isUnnamed_iff.mp hblank)
    · exact (Machine.owner?_create id b.kind hh).trans (hnone h)
  | @refused taken rest h e distinct named hs granted hrefuse =>
    have hin : ∀ g ∈ taken, g ∈ b.states := fun g hg => hs ▸ List.mem_append_left _ hg
    have hself : h ∈ b.states := hs ▸ List.mem_append_right _ List.mem_cons_self
    have howner := owner?_midway (b := b) id time (fun g hg => known g (hin g hg)) (known h hself)
    -- The state at fault has a key of its own, so that taking the others leaves its owner alone.
    have hnew : h ∉ taken := by
      intro hh
      rw [keys, hs, List.map_append] at distinct
      exact (List.nodup_append.mp distinct).2.2 _ (List.mem_map_of_mem hh) _
        (List.mem_map_of_mem List.mem_cons_self) rfl
    rw [if_neg hnew] at howner
    refine ⟨(b.midway store id time taken).store, ?_, fun g hg =>
      owner?_midway id time (fun g hg => known g (hin g hg)) hg⟩
    rw [build_eq_of_named id time distinct named,
      attachAll_outset id time hs known distinct granted, attachAll,
      Site.attach_of_refuses (hrefuse.congr howner)]
  | misled distinct named granted hi hmisled =>
    refine ⟨(b.midway store id time b.states).store, ?_, fun g hg => owner?_midway id time known hg⟩
    rw [build_eq_of_named id time distinct named,
      attachAll_outset_states known distinct granted id time]
    simp only [enterInitial_of_misleads known distinct granted id time hi hmisled]

/-- With a valid configuration all the states are taken and the initial one is entered. -/
theorem Valid.build_eq (valid : b.Valid store) (known : ∀ h ∈ b.states, store.Knows h) :
    ∃ s, attachAll b.states (b.outset store id time) = (.ok (), b.midway store id time b.states) ∧
      b.enterInitial (b.midway store id time b.states) = (.ok (), s) ∧
      b.build store id time = (.ok s.machine, s.store) := by
  obtain ⟨s, hs⟩ := valid.enterInitial id time known
  have hattach := attachAll_outset_states known valid.distinct valid.granted id time
  refine ⟨s, hattach, hs, ?_⟩
  rw [build_eq_of_named id time valid.distinct valid.named, hattach]
  simp only [hs]

/-- A build succeeds with the valid configurations. -/
theorem build_eq_ok_iff (known : ∀ h ∈ b.states, store.Knows h) :
    (∃ m, (b.build store id time).1 = .ok m) ↔ b.Valid store := by
  constructor
  · rintro ⟨m, hm⟩
    rcases b.valid_or_fails store with valid | ⟨e, taken, fails⟩
    · exact valid
    · obtain ⟨after, hbuild, -⟩ := fails.build_eq id time known
      rw [hbuild] at hm
      cases hm
  · intro valid
    obtain ⟨s, -, -, hbuild⟩ := valid.build_eq id time known
    exact ⟨s.machine, by rw [hbuild]⟩

/-- A build fails with the first thing that is wrong. -/
theorem build_eq_error_iff (known : ∀ h ∈ b.states, store.Knows h) {e : BuildError} :
    (b.build store id time).1 = .error e ↔ ∃ taken, b.Fails store e taken := by
  constructor
  · intro he
    rcases b.valid_or_fails store with valid | ⟨e', taken, fails⟩
    · obtain ⟨m, hm⟩ := (build_eq_ok_iff id time known).mpr valid
      cases he.symm.trans hm
    · obtain ⟨after, hbuild, -⟩ := fails.build_eq id time known
      rw [hbuild] at he
      cases he
      exact ⟨taken, fails⟩
  · rintro ⟨taken, fails⟩
    obtain ⟨after, hbuild, -⟩ := fails.build_eq id time known
    rw [hbuild]

end

end Builder

end StateEngine
