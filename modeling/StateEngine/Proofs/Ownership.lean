import StateEngine.Proofs.Building

/-!
# What belongs to a machine

A machine lists every state that it owns under the state's key, and its reserved keys stand for the
constants it was made with. Nothing that another machine does to the store can change this, since a
machine only takes states for itself.
-/

namespace StateEngine

variable {ρ : Type}

namespace Store

/-- No state was taken in the meantime but by `id`. -/
def TakenBy (before after : Store ρ) (id : MachineId) : Prop :=
  ∀ h owner, after.owner? h = some owner → before.owner? h = some owner ∨ owner = id

/-- A table has an entry for every state of `owner`. -/
def Covers (store : Store ρ) (owner : MachineId) (table : Table Handle) : Prop :=
  ∀ h, store.Knows h → store.owner? h = some owner → table.contains h.key = true

theorem owner?_alloc (store : Store ρ) (cell : Cell ρ) (h : Handle) :
    (store.alloc cell).2.owner? h =
      if h.index = store.cells.size then cell.owner else store.owner? h := by
  simp only [owner?, cell?, alloc, Array.getElem?_push]
  split <;> rfl

theorem owner?_setOwner_of_ne (store : Store ρ) {h g : Handle} (hne : h.index ≠ g.index)
    (id : MachineId) : (store.setOwner h id).owner? g = store.owner? g := by
  rw [owner?, cell?_setOwner, if_neg hne, owner?]

/-- Two handles of one state have the same key. -/
theorem Knows.key_eq {store : Store ρ} {h g : Handle} (hh : store.Knows h) (hg : store.Knows g)
    (hi : h.index = g.index) : h.key = g.key := by
  obtain ⟨b, hb, hkey⟩ := hh
  obtain ⟨c, hc, hkey'⟩ := hg
  have hcell : store.behaviour? h = store.behaviour? g := by
    rw [Store.behaviour?, Store.behaviour?, cell?, cell?, hi]
  rw [hcell, hc, Option.some.injEq] at hb
  rw [← hkey, ← hkey', hb]

/-- A state that had an owner was made before. -/
theorem Grows.knows_of_owner? {before after : Store ρ} (hg : before.Grows after) {h : Handle}
    {owner : MachineId} (ho : before.owner? h = some owner) (hk : after.Knows h) :
    before.Knows h := by
  obtain ⟨cell, hc, -⟩ := Option.bind_eq_some_iff.mp ho
  obtain ⟨cell', hc', hcont, -⟩ := hg h cell hc
  obtain ⟨b, hb, hkey⟩ := hk
  rw [Store.behaviour?, hc', Option.map_some, Option.some.injEq] at hb
  refine ⟨cell.behaviour, by rw [Store.behaviour?, hc, Option.map_some], ?_⟩
  rw [← hkey, ← hb, hcont.key_eq]

namespace TakenBy

variable {id : MachineId}

theorem refl (store : Store ρ) (id : MachineId) : store.TakenBy store id :=
  fun _ _ ho => .inl ho

theorem trans {a b c : Store ρ} (hab : a.TakenBy b id) (hbc : b.TakenBy c id) : a.TakenBy c id := by
  intro h owner ho
  rcases hbc h owner ho with ho | heq
  · exact hab h owner ho
  · exact .inr heq

theorem alloc (store : Store ρ) {cell : Cell ρ} (hcell : ∀ owner, cell.owner = some owner → owner = id) :
    store.TakenBy (store.alloc cell).2 id := by
  intro h owner ho
  rw [owner?_alloc] at ho
  split at ho
  · exact .inr (hcell owner ho)
  · exact .inl ho

theorem setOwner (store : Store ρ) (h : Handle) (id : MachineId) :
    store.TakenBy (store.setOwner h id) id := by
  intro g owner ho
  by_cases hi : h.index = g.index
  · rw [owner?, cell?_setOwner, if_pos hi] at ho
    obtain ⟨cell, hcell, howner⟩ := Option.bind_eq_some_iff.mp ho
    obtain ⟨old, -, rfl⟩ := Option.map_eq_some_iff.mp hcell
    exact .inr (Option.some.inj howner).symm
  · rw [store.owner?_setOwner_of_ne hi] at ho
    exact .inl ho

theorem install (id : MachineId) (behaviours : List (Behaviour ρ)) (store : Store ρ)
    (table : Table Handle) : store.TakenBy (install id behaviours store table).1 id := by
  induction behaviours generalizing store table with
  | nil => exact refl store id
  | cons b rest ih =>
    exact (alloc store fun _ ho => (Option.some.inj ho).symm).trans (ih _ _)

theorem create (store : Store ρ) (id : MachineId) (kind : MachineKind) :
    store.TakenBy (Machine.create store id kind).2 id :=
  (alloc store fun _ ho => (Option.some.inj ho).symm).trans (install id _ _ _)

end TakenBy

namespace Covers

variable {store : Store ρ} {owner : MachineId} {table : Table Handle}

/-- A machine misses nothing while none of the states taken are taken for it. -/
theorem grows {after : Store ρ} (hc : store.Covers owner table) (hg : store.Grows after)
    (hkept : ∀ h, after.owner? h = some owner → store.owner? h = some owner) :
    after.Covers owner table := by
  intro h hk ho
  have hbefore := hkept h ho
  exact hc h (hg.knows_of_owner? hbefore hk) hbefore

theorem taken {after : Store ρ} {id : MachineId} (hc : store.Covers owner table)
    (hg : store.Grows after) (ht : store.TakenBy after id) (hne : owner ≠ id) :
    after.Covers owner table :=
  hc.grows hg fun h ho => (ht h owner ho).resolve_right hne

/-- A state that is made for a machine is covered by an entry under its key. -/
theorem alloc (hc : store.Covers owner table) (b : Behaviour ρ) (h : Handle) :
    (store.alloc { owner := some owner, behaviour := b }).2.Covers owner
      (table.insert b.key h) := by
  intro g hk ho
  rw [contains_insert]
  rw [owner?_alloc] at ho
  split at ho
  · rename_i hi
    have hself := store.knows_alloc { owner := some owner, behaviour := b }
    exact .inl (hk.key_eq hself hi)
  · exact .inr (hc g ((store.grows_alloc _).knows_of_owner? ho hk) ho)

/-- A free state that a machine takes is covered by an entry under its key. -/
theorem setOwner (hc : store.Covers owner table) {h : Handle} (hk : store.Knows h)
    (hfree : store.owner? h = none) :
    (store.setOwner h owner).Covers owner (table.insert h.key h) := by
  intro g hg ho
  have hgrows := grows_setOwner hfree owner
  rw [contains_insert]
  by_cases hi : h.index = g.index
  · exact .inl (hg.key_eq (hgrows.knows hk) hi.symm)
  · rw [store.owner?_setOwner_of_ne hi] at ho
    exact .inr (hc g (hgrows.knows_of_owner? ho hg) ho)

theorem install (hc : store.Covers owner table) (behaviours : List (Behaviour ρ)) :
    (install owner behaviours store table).1.Covers owner
      (install owner behaviours store table).2 := by
  induction behaviours generalizing store table with
  | nil => exact hc
  | cons b rest ih => exact ih (hc.alloc b _)

end Covers

/-- What a new machine lists is a state it brings along, or what was listed before. -/
theorem get?_install (owner : MachineId) {behaviours : List (Behaviour ρ)} {store : Store ρ}
    {table : Table Handle} {key : Key} {h : Handle}
    (hk : (install owner behaviours store table).2.get? key = some h) :
    (∃ b ∈ behaviours, b.key = key ∧
        ∃ after, (install owner behaviours store table).1.behaviour? h = some after ∧
          b.Continues after) ∨
      (table.get? key = some h ∧ ∀ b ∈ behaviours, b.key ≠ key) := by
  induction behaviours generalizing store table with
  | nil => exact .inr ⟨hk, fun b hb => absurd hb List.not_mem_nil⟩
  | cons b rest ih =>
    rcases ih hk with ⟨c, hm, hkey, hc⟩ | ⟨hold, hrest⟩
    · exact .inl ⟨c, List.mem_cons_of_mem _ hm, hkey, hc⟩
    · rw [Table.get?_insert] at hold
      split at hold
      · rename_i hkey
        obtain rfl := Option.some.inj hold
        have hself : (store.alloc { owner := some owner, behaviour := b }).2.behaviour?
            (store.alloc { owner := some owner, behaviour := b }).1 = some b := by
          rw [behaviour?, cell?_alloc_self, Option.map_some]
        exact .inl ⟨b, List.mem_cons_self, hkey.symm,
          (grows_install owner rest _ _).behaviour? hself⟩
      · rename_i hne
        exact .inr ⟨hold, List.forall_mem_cons.mpr ⟨fun h => hne h.symm, hrest⟩⟩

/-- The states a machine brings along under reserved keys are constants. -/
theorem eq_constant_of_reserved {kind : MachineKind} {b : Behaviour ρ} (hb : b ∈ builtins kind)
    (hk : Key.isReserved b.key = true) : b = .constant b.key := by
  cases kind with
  | flat =>
    simp only [builtins, List.mem_cons, List.not_mem_nil, or_false] at hb
    rcases hb with rfl | rfl <;> rfl
  | stack =>
    simp only [builtins, List.mem_cons, List.not_mem_nil, or_false] at hb
    rcases hb with rfl | rfl | rfl | rfl | rfl
    · rfl
    · rfl
    · exact absurd hk (show ¬ Key.isReserved Key.pop = true by decide)
    · exact absurd hk (show ¬ Key.isReserved Key.iterate = true by decide)
    · exact absurd hk (show ¬ Key.isReserved Key.iterateNext = true by decide)

end Store

/-- The reserved keys of a new machine stand for constants. -/
theorem Machine.create_constants (store : Store ρ) (id : MachineId) (kind : MachineKind) {key : Key}
    (hk : Key.isReserved key = true) :
    ∃ h, (create store id kind).1.table.get? key = some h ∧
      (create store id kind).2.behaviour? h = some (.constant key) := by
  let start := store.alloc { owner := some id, behaviour := .constant Key.uninitialized }
  have hlisted : (create store id kind).1.table.contains key = true := by
    have hmem : key ∈ [Key.error, Key.uninitialized, Key.done] := List.contains_iff_mem.mp hk
    simp only [List.mem_cons, List.not_mem_nil, or_false] at hmem
    rcases hmem with rfl | rfl | rfl <;> cases kind <;> rfl
  obtain ⟨h, hh⟩ := Option.isSome_iff_exists.mp hlisted
  refine ⟨h, hh, ?_⟩
  rcases Store.get?_install id hh with ⟨b, hb, rfl, after, hafter, hcont⟩ | ⟨hold, -⟩
  · rw [Store.eq_constant_of_reserved hb hk] at hcont
    obtain rfl : after = .constant b.key := hcont
    exact hafter
  · rw [Table.get?_insert] at hold
    split at hold
    · rename_i hkey
      subst hkey
      obtain rfl := Option.some.inj hold
      have hself : start.2.behaviour? start.1 = some (.constant Key.uninitialized) := by
        rw [Store.behaviour?, Store.cell?_alloc_self, Option.map_some]
      obtain ⟨after, hafter, hcont⟩ :=
        (Store.grows_install id (Store.builtins kind) start.2 _).behaviour? hself
      obtain rfl : after = .constant Key.uninitialized := hcont
      exact hafter
    · cases hold

namespace Site

/-- What a machine keeps for good, besides being sound: the identity that it was made with, the
constants under the reserved keys, and an entry for every state that it owns. -/
structure Intact (made : Machine) (s : Site ρ) : Prop where
  sound : s.Sound
  id_eq : s.machine.id = made.id
  covers : s.store.Covers s.machine.id s.machine.table
  constants : ∀ key, Key.isReserved key = true → ∃ h, made.table.get? key = some h ∧
    s.machine.table.get? key = some h ∧ s.store.behaviour? h = some (.constant key)

namespace Intact

variable {made : Machine}

/-- A machine is left whole by whatever the rest of the world does without taking states for it. -/
theorem grows {s s' : Site ρ} (h : s.Intact made) (hg : s.store.Grows s'.store)
    (hkept : ∀ g, s'.store.owner? g = some s.machine.id → s.store.owner? g = some s.machine.id)
    (hid : s'.machine.id = s.machine.id) (htable : s'.machine.table = s.machine.table)
    (hcurrent : s'.machine.current = s.machine.current) : s'.Intact made where
  sound := h.sound.grows hg hid htable hcurrent
  id_eq := hid.trans h.id_eq
  covers := by rw [hid, htable]; exact h.covers.grows hg hkept
  constants key hk := by
    obtain ⟨g, hmade, hlisted, hb⟩ := h.constants key hk
    obtain ⟨after, hafter, hcont⟩ := hg.behaviour? hb
    obtain rfl : after = .constant key := hcont
    exact ⟨g, hmade, by rw [htable]; exact hlisted, hafter⟩

theorem entered {s : Site ρ} (h : s.Intact made) {how : Move} {g : Handle} (ha : s.Admits how g)
    (hk : s.store.Knows g) : (s.entered how g).Intact made :=
  ⟨h.sound.entered ha hk, h.id_eq, h.covers, h.constants⟩

theorem leads {s s' : Site ρ} (h : s.Intact made) (hl : s.Leads s') : s'.Intact made := by
  cases hl with
  | stays => exact h
  | enters hk ha => exact h.entered ha (h.sound.lists _ _ hk).2.2

/-- A state that is taken comes under a key of its own, which is not a reserved one. -/
theorem attached {s : Site ρ} (h : s.Intact made) {g : Handle} (hk : s.store.Knows g)
    (hfree : s.store.owner? g = none) (hkey : ¬ Key.isReserved g.key) : Intact made
      { s with
        store := s.store.setOwner g s.machine.id
        machine := { s.machine with table := s.machine.table.insert g.key g } } where
  sound := h.sound.attached hk hfree
  id_eq := h.id_eq
  covers := h.covers.setOwner hk hfree
  constants key hreserved := by
    obtain ⟨c, hmade, hlisted, hb⟩ := h.constants key hreserved
    have hne : key ≠ g.key := fun heq => hkey (heq ▸ hreserved)
    refine ⟨c, hmade, ?_, ?_⟩
    · rw [Table.get?_insert, if_neg hne]
      exact hlisted
    · rw [Store.behaviour?_setOwner]
      exact hb

theorem did {s s' : Site ρ} {op : Op} (h : s.Intact made) (hd : s.Did op s')
    (honest : op.Honest s.store) : s'.Intact made := by
  cases hd with
  | nothing => exact h
  | noted | edited => exact h.grows (.refl _) (fun _ ho => ho) rfl rfl rfl
  | @moved how target g hr ha =>
    cases target with
    | key key => exact h.entered ha (h.sound.lists _ _ (Machine.decode_eq_ok_iff.mp hr)).2.2
    | handle g' =>
      obtain rfl : g' = g := by simpa [resolve] using hr
      exact h.entered ha honest
  | attached hkey hfree => exact h.attached honest hfree hkey
  | @stacked _ frames _ _ hl =>
    have hframes : (s.withFrames frames).Intact made :=
      h.grows (.refl _) (fun _ ho => ho) rfl rfl rfl
    exact hframes.leads hl

theorem deed {e : Execution ρ} {s' : Site ρ} (h : e.site.Intact made) (honest : e.Honest)
    (hd : e.Deed s') : s'.Intact made := by
  cases hd with
  | idle => exact h
  | performed hf hd =>
    rw [Execution.Honest, hf] at honest
    exact h.did hd honest
  | wrapped =>
    refine h.grows (Store.grows_alloc _ _) (fun g ho => ?_) rfl rfl rfl
    rw [Store.owner?_alloc] at ho
    split at ho
    · cases ho
    · exact ho
  | @activated _ frames _ _ _ hl =>
    have hbegun : (e.site.begun.withFrames frames).Intact made :=
      h.grows (.refl _) (fun _ ho => ho) rfl rfl rfl
    exact hbegun.leads hl

/-- A machine is whole from the start if nobody had its identity before. -/
theorem create {s : Site ρ} {store : Store ρ} {id : MachineId} {kind : MachineKind}
    (hfresh : ∀ g, store.owner? g ≠ some id) (given : Option String) (history : History)
    (observers : List String)
    (hm : s.machine = { (Machine.create store id kind).1 with given, history, observers })
    (hs : s.store = (Machine.create store id kind).2) :
    s.Intact (Machine.create store id kind).1 where
  sound := sound_create store id kind given history observers hm hs
  id_eq := by rw [hm]
  covers := by
    have hnone : store.Covers id .empty := fun g _ ho => absurd ho (hfresh g)
    rw [hm, hs]
    exact (hnone.alloc (.constant Key.uninitialized) _).install (Store.builtins kind)
  constants key hk := by
    obtain ⟨h, hh, hb⟩ := Machine.create_constants store id kind hk
    rw [hm, hs]
    exact ⟨h, hh, hh, hb⟩

end Intact

theorem Did.taken {s s' : Site ρ} {op : Op} (h : s.Did op s') :
    s.store.TakenBy s'.store s.machine.id := by
  cases h with
  | nothing | noted | edited | moved => exact .refl _ _
  | attached => exact .setOwner _ _ _
  | stacked _ hl => exact hl.store_eq ▸ .refl _ _

theorem Did.id_eq {s s' : Site ρ} {op : Op} (h : s.Did op s') : s'.machine.id = s.machine.id := by
  cases h with
  | nothing | noted | edited | moved | attached => rfl
  | stacked _ hl => cases hl <;> rfl

end Site

theorem Execution.Deed.taken {e : Execution ρ} {s' : Site ρ} (h : e.Deed s') :
    e.site.store.TakenBy s'.store e.site.machine.id := by
  cases h with
  | idle => exact .refl _ _
  | performed _ hd => exact hd.taken
  | wrapped => exact .alloc _ nofun
  | activated _ _ hl => exact hl.store_eq ▸ .refl _ _

namespace Builder

variable {b : Builder} {store : Store ρ} {id : MachineId} {time : Timestamp}

/-- However a build ends, the store has only grown, and states were taken for the new machine
alone. -/
theorem Builds.grows {r : Except BuildError Machine × Store ρ} (h : b.Builds store id time r)
    (known : ∀ g ∈ b.states, store.Knows g) : store.Grows r.2 ∧ store.TakenBy r.2 id := by
  have hcreate := Machine.grows_create store id b.kind
  have htaken := Store.TakenBy.create store id b.kind
  have hattach : ∀ {s : Site ρ} {r : Except MachineError Unit},
      attachAll b.states (b.outset store id time) = (r, s) →
        s.machine.id = id ∧ store.Grows s.store ∧ store.TakenBy s.store id := by
    intro s r ha
    refine attachAll_induction (P := fun s : Site ρ => s.machine.id = id ∧ store.Grows s.store ∧
      store.TakenBy s.store id) ?_ ⟨rfl, hcreate, htaken⟩ (fun g hg => hcreate.knows (known g hg)) ha
    rintro s g s' ⟨hid, hg, ht⟩ - hd
    exact ⟨hd.id_eq.trans hid, hg.trans hd.grows, ht.trans (hid ▸ hd.taken)⟩
  cases h with
  | repeats => exact ⟨.refl _, .refl _ _⟩
  | unnamed => exact ⟨hcreate, htaken⟩
  | refused ha => exact (hattach ha).2
  | @astray e s s' ha hi | @made s s' ha hi =>
    have hstore : s'.store = s.store := by
      rw [← b.enterInitial_store s, hi]
    exact hstore ▸ (hattach ha).2

/-- A machine that is built under a fresh identity is whole. -/
theorem intact_of_build {m : Machine} {after : Store ρ} (known : ∀ g ∈ b.states, store.Knows g)
    (hfresh : ∀ g, store.owner? g ≠ some id) (h : b.build store id time = (.ok m, after))
    (shelf : Table Handle) (journal : List Entry) (clock : Timestamp) :
    Site.Intact (Machine.create store id b.kind).1
      { machine := m, store := after, shelf, journal, clock } := by
  have hbuilds := b.build_builds store id time
  rw [h] at hbuilds
  generalize hr : (Except.ok m, after) = r at hbuilds
  cases hbuilds with
  | repeats | unnamed | refused | astray => cases hr
  | @made s s' ha hi =>
    cases hr
    have houtset : (b.outset store id time).Intact (Machine.create store id b.kind).1 :=
      .create hfresh b.name _ b.observers rfl rfl
    have hs : s.Intact (Machine.create store id b.kind).1 :=
      attachAll_induction (fun _ _ _ hs hk hd => hs.did hd hk) houtset
        (fun g hg => (Machine.grows_create store id b.kind).knows (known g hg)) ha
    have hs' : s'.Intact (Machine.create store id b.kind).1 := by
      rcases b.enterInitial_did s with heq | ⟨key, hd⟩
      · rw [hi] at heq
        obtain rfl : s' = s := heq
        exact hs
      · rw [hi] at hd
        exact hs.did hd trivial
    exact hs'.grows (.refl _) (fun _ ho => ho) rfl rfl rfl

end Builder

end StateEngine
