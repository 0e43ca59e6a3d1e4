import StateEngine.Proofs.Soundness

/-!
# What a build comes to

A build goes through its checks in order and ends at the first that fails. `Builder.Builds` lists the
ways it can end; what holds of a new machine, or of the store after a machine was lost, is read off
that list.
-/

namespace StateEngine

variable {ρ : Type}

namespace Builder

/-- The machine of a builder before it takes its states, with nothing around it. -/
def outset (b : Builder) (store : Store ρ) (id : MachineId) (time : Timestamp) : Site ρ where
  machine := b.bare (Machine.create store id b.kind).1
  store := (Machine.create store id b.kind).2
  shelf := .empty
  journal := []
  clock := time

/-- How a build can end. -/
inductive Builds (b : Builder) (store : Store ρ) (id : MachineId) (time : Timestamp) :
    Except BuildError Machine × Store ρ → Prop where
  | repeats {key : Key} : firstRepeated? [] (b.states.map Handle.key) = some key →
      Builds b store id time (.error (.duplicateKey key), store)
  | unnamed : b.name.any Text.allBlank = true →
      Builds b store id time (.error .emptyName, (b.outset store id time).store)
  | refused {e : MachineError} {s : Site ρ} :
      attachAll b.states (b.outset store id time) = (.error e, s) →
      Builds b store id time (.error (.machine e), s.store)
  | astray {e : MachineError} {s s' : Site ρ} :
      attachAll b.states (b.outset store id time) = (.ok (), s) →
      b.enterInitial s = (.error e, s') → Builds b store id time (.error (.machine e), s'.store)
  | made {s s' : Site ρ} : attachAll b.states (b.outset store id time) = (.ok (), s) →
      b.enterInitial s = (.ok (), s') → Builds b store id time (.ok s'.machine, s'.store)

theorem build_eq (b : Builder) (store : Store ρ) (id : MachineId) (time : Timestamp) :
    b.build store id time =
      match firstRepeated? [] (b.states.map Handle.key) with
      | some key => (.error (.duplicateKey key), store)
      | none =>
        if b.name.any Text.allBlank then (.error .emptyName, (b.outset store id time).store)
        else
          match attachAll b.states (b.outset store id time) with
          | (.error e, s) => (.error (.machine e), s.store)
          | (.ok (), s) =>
            match b.enterInitial s with
            | (.error e, s) => (.error (.machine e), s.store)
            | (.ok (), s) => (.ok s.machine, s.store) := rfl

theorem build_builds (b : Builder) (store : Store ρ) (id : MachineId) (time : Timestamp) :
    b.Builds store id time (b.build store id time) := by
  rw [build_eq]
  split
  · rename_i key hkey
    exact .repeats hkey
  split
  · rename_i hname
    exact .unnamed hname
  split
  · rename_i e s ha
    exact .refused ha
  rename_i s ha
  split
  · rename_i e s' hi
    exact .astray ha hi
  · rename_i s' hi
    exact .made ha hi

/-- Taking states changes nothing of a machine but its table, and makes no states. -/
theorem attachAll_keeps (states : List Handle) (s : Site ρ) :
    (∃ table, (attachAll states s).2.machine = { s.machine with table }) ∧
      (attachAll states s).2.clock = s.clock ∧
      ∀ P : Behaviour ρ → Prop, s.store.All P → (attachAll states s).2.store.All P := by
  induction states generalizing s with
  | nil => exact ⟨⟨s.machine.table, rfl⟩, rfl, fun _ all => all⟩
  | cons h rest ih =>
    rw [attachAll]
    cases ha : s.attach h with
    | error e => exact ⟨⟨s.machine.table, rfl⟩, rfl, fun _ all => all⟩
    | ok r =>
      obtain ⟨-, -, rfl⟩ := Site.attach_eq_ok_iff.mp ha
      obtain ⟨⟨table, hm⟩, hclock, hall⟩ := ih { s with
        store := s.store.setOwner h s.machine.id
        machine := { s.machine with table := s.machine.table.insert h.key h } }
      exact ⟨⟨table, hm⟩, hclock, fun P all => hall P (all.setOwner h s.machine.id)⟩

/-- The initial state is entered as by a request for it. -/
theorem enterInitial_did (b : Builder) (s : Site ρ) : (b.enterInitial s).2 = s ∨
    ∃ key, s.Did (.move .select (.key key)) (b.enterInitial s).2 := by
  unfold enterInitial
  cases b.initial with
  | none => exact .inl rfl
  | some key => exact .inr ⟨key, s.answer_did (.move .select (.key key))⟩

/-- The initial state is entered or nothing happens. -/
theorem enterInitial_enters (b : Builder) (s : Site ρ) : (b.enterInitial s).2 = s ∨
    ∃ h, (b.enterInitial s).2 = s.entered .select h := by
  unfold enterInitial
  cases b.initial with
  | none => exact .inl rfl
  | some key =>
    simp only
    cases hm : s.move .select (.key key) with
    | error e => exact .inl rfl
    | ok s' =>
      obtain ⟨h, -, -, rfl⟩ := Site.move_eq_ok_iff.mp hm
      exact .inr ⟨h, rfl⟩

theorem enterInitial_store (b : Builder) (s : Site ρ) : (b.enterInitial s).2.store = s.store := by
  rcases b.enterInitial_enters s with heq | ⟨h, heq⟩
  · rw [heq]
  · rw [heq, Site.entered_store]

/-- Entering the initial state leaves the frames of a machine alone, and what kind it is of. -/
theorem enterInitial_keeps (b : Builder) (s : Site ρ) :
    (b.enterInitial s).2.machine.frames = s.machine.frames ∧
      (b.enterInitial s).2.machine.kind = s.machine.kind := by
  rcases b.enterInitial_enters s with heq | ⟨h, heq⟩
  · rw [heq]
    exact ⟨rfl, rfl⟩
  · rw [heq]
    exact ⟨rfl, rfl⟩

theorem sound_outset (b : Builder) (store : Store ρ) (id : MachineId) (time : Timestamp) :
    (b.outset store id time).Sound :=
  Site.sound_create store id b.kind b.name _ b.observers rfl rfl

theorem sound_of_attachAll {b : Builder} {store : Store ρ} {id : MachineId} {time : Timestamp}
    {s : Site ρ} (known : ∀ h ∈ b.states, store.Knows h)
    (ha : attachAll b.states (b.outset store id time) = (.ok (), s)) : s.Sound :=
  attachAll_induction (fun _ _ _ hs hk hd => hs.did hd hk) (b.sound_outset store id time)
    (fun g hg => (Machine.grows_create store id b.kind).knows (known g hg)) ha

/-- The initial state is the only one that a new machine can have entered. -/
theorem progressed_of_build {b : Builder} {store after : Store ρ} {id : MachineId}
    {time : Timestamp} {m : Machine} (h : b.build store id time = (.ok m, after)) :
    m.progressed = b.initial.isSome := by
  have hbuilds := b.build_builds store id time
  rw [h] at hbuilds
  cases hbuilds with
  | @made s s' ha hi =>
    obtain ⟨⟨table, hm⟩, -, -⟩ := attachAll_keeps b.states (b.outset store id time)
    have hunmarked : s.machine.progressed = false := by
      rw [ha] at hm
      rw [hm]
      rfl
    unfold enterInitial at hi
    cases hinitial : b.initial with
    | none =>
      rw [hinitial] at hi
      cases hi
      exact hunmarked
    | some key =>
      simp only [hinitial] at hi
      cases hmove : s.move .select (.key key) with
      | error e =>
        rw [hmove] at hi
        cases hi
      | ok entered =>
        obtain ⟨h, -, -, rfl⟩ := Site.move_eq_ok_iff.mp hmove
        rw [hmove] at hi
        cases hi
        rfl

/-- A build that succeeds or fails makes no states but those a machine brings along. -/
theorem build_all {P : Behaviour ρ → Prop} (b : Builder) {store : Store ρ} (all : store.All P)
    (hstart : P (.constant Key.uninitialized)) (hbuiltin : ∀ c ∈ Store.builtins b.kind, P c)
    (id : MachineId) (time : Timestamp) : (b.build store id time).2.All P := by
  have hcreate : (b.outset store id time).store.All P := all.create id hstart hbuiltin
  have hattach : (attachAll b.states (b.outset store id time)).2.store.All P :=
    (attachAll_keeps b.states (b.outset store id time)).2.2 P hcreate
  have hbuilds := b.build_builds store id time
  generalize b.build store id time = r at hbuilds ⊢
  cases hbuilds with
  | repeats => exact all
  | unnamed => exact hcreate
  | refused ha =>
    rw [ha] at hattach
    exact hattach
  | @astray e s s' ha hi | @made s s' ha hi =>
    have hstore := b.enterInitial_store s
    rw [ha] at hattach
    rw [hi] at hstore
    exact hstore ▸ hattach

end Builder

/-- A new stack machine has the sentinel and no other frame. -/
theorem Site.Born.frames_eq {s : Site ρ} (born : s.Born) (hkind : s.machine.kind = .stack) :
    s.machine.frames = Stack.initial := by
  cases born with
  | created store id kind shelf journal clock =>
    obtain rfl : kind = .stack := hkind
    rfl
  | @built b store after id time m shelf journal clock hknown h =>
    have hbuilds := b.build_builds store id time
    rw [h] at hbuilds
    cases hbuilds with
    | @made s₁ s₂ ha hi =>
      obtain ⟨⟨table, hm⟩, -, -⟩ := Builder.attachAll_keeps b.states (b.outset store id time)
      obtain ⟨hframes, hk⟩ := b.enterInitial_keeps s₁
      rw [ha] at hm
      rw [hi] at hframes hk
      have hstack : b.kind = .stack := by
        rw [hm] at hk
        exact hk.symm.trans hkind
      have hinitial : (b.outset store id time).machine.frames = Stack.initial := by
        unfold Builder.outset Builder.bare
        rw [hstack]
        rfl
      rw [hm] at hframes
      exact hframes.trans hinitial

end StateEngine
