import StateEngine.Proofs.Run

/-!
# What a machine's table lists

Along every run each entry of the table is a state that the machine owns, under the key it was made
with; so is the current state. The fault state stays listed, and no key is ever removed.
-/

namespace StateEngine

variable {ρ : Type}

/-- Every entry of a table is a state of `owner` under its own key. -/
def Store.Lists (store : Store ρ) (owner : MachineId) (table : Table Handle) : Prop :=
  ∀ key h, table.get? key = some h →
    h.key = key ∧ store.owner? h = some owner ∧ store.Knows h

namespace Store

theorem Lists.grows {store after : Store ρ} {owner : MachineId} {table : Table Handle}
    (hl : store.Lists owner table) (hg : store.Grows after) : after.Lists owner table := by
  intro key h hk
  obtain ⟨hkey, ho, hknown⟩ := hl key h hk
  exact ⟨hkey, hg.owner? ho, hg.knows hknown⟩

theorem Lists.insert {store : Store ρ} {owner : MachineId} {table : Table Handle} {h : Handle}
    (hl : store.Lists owner table) (ho : store.owner? h = some owner) (hk : store.Knows h) :
    store.Lists owner (table.insert h.key h) := by
  intro key g hg
  rw [Table.get?_insert] at hg
  by_cases he : key = h.key
  · rw [if_pos he, Option.some.injEq] at hg
    subst hg
    exact ⟨he.symm, ho, hk⟩
  · rw [if_neg he] at hg
    exact hl key g hg

theorem contains_insert (table : Table Handle) (key other : Key) (h : Handle) :
    (table.insert key h).contains other = true ↔ other = key ∨ table.contains other = true := by
  rw [Table.contains, Table.get?_insert, Table.contains]
  by_cases he : other = key <;> simp [he]

/-- A machine begins by listing the state that it starts in. -/
theorem start_lists (store : Store ρ) (id : MachineId) :
    (store.alloc { owner := some id, behaviour := .constant Key.uninitialized }).2.Lists id
      (Table.empty.insert Key.uninitialized
        (store.alloc { owner := some id, behaviour := .constant Key.uninitialized }).1) := by
  have hempty : (store.alloc { owner := some id, behaviour := .constant Key.uninitialized }).2.Lists
      id .empty := nofun
  exact hempty.insert (store.owner?_alloc_self _) (store.knows_alloc _)

theorem install_lists (owner : MachineId) (behaviours : List (Behaviour ρ)) {store : Store ρ}
    {table : Table Handle} (hl : store.Lists owner table) :
    (install owner behaviours store table).1.Lists owner
        (install owner behaviours store table).2 ∧
      ∀ key, (install owner behaviours store table).2.contains key = true ↔
        (∃ b ∈ behaviours, b.key = key) ∨ table.contains key = true := by
  induction behaviours generalizing store table with
  | nil => exact ⟨hl, by simp [install]⟩
  | cons b rest ih =>
    have hgrow := store.grows_alloc { owner := some owner, behaviour := b }
    have hown := store.owner?_alloc_self { owner := some owner, behaviour := b }
    have hknow := store.knows_alloc { owner := some owner, behaviour := b }
    obtain ⟨hl', hc⟩ := ih ((hl.grows hgrow).insert hown hknow)
    refine ⟨hl', fun key => (hc key).trans ?_⟩
    rw [contains_insert]
    constructor
    · rintro (⟨c, hm, hkey⟩ | hkey | hold)
      · exact .inl ⟨c, List.mem_cons_of_mem _ hm, hkey⟩
      · exact .inl ⟨b, List.mem_cons_self, hkey.symm⟩
      · exact .inr hold
    · rintro (⟨c, hm, hkey⟩ | hold)
      · rcases List.mem_cons.mp hm with rfl | hm
        · exact .inr (.inl hkey.symm)
        · exact .inl ⟨c, hm, hkey⟩
      · exact .inr (.inr hold)

end Store

namespace Site

/-- What the table and the current state of a machine are like at every moment. -/
structure Sound (s : Site ρ) : Prop where
  lists : s.store.Lists s.machine.id s.machine.table
  owns : s.Owns s.machine.current
  knows : s.store.Knows s.machine.current
  error_listed : s.machine.table.contains Key.error = true

namespace Sound

theorem grows {s s' : Site ρ} (h : s.Sound) (hg : s.store.Grows s'.store)
    (hid : s'.machine.id = s.machine.id) (htable : s'.machine.table = s.machine.table)
    (hcurrent : s'.machine.current = s.machine.current) : s'.Sound where
  lists := by rw [hid, htable]; exact h.lists.grows hg
  owns := by rw [Owns, hid, hcurrent]; exact hg.owner? h.owns
  knows := by rw [hcurrent]; exact hg.knows h.knows
  error_listed := by rw [htable]; exact h.error_listed

theorem begun {s : Site ρ} (sound : s.Sound) : s.begun.Sound := sound.grows (.refl _) rfl rfl rfl

theorem withFrames {s : Site ρ} (sound : s.Sound) (frames : Stack) : (s.withFrames frames).Sound :=
  sound.grows (.refl _) rfl rfl rfl

theorem entered {s : Site ρ} (sound : s.Sound) {how : Move} {h : Handle} (ha : s.Admits how h)
    (hk : s.store.Knows h) : (s.entered how h).Sound :=
  ⟨sound.lists, ha.2.1, hk, sound.error_listed⟩

theorem leads {s s' : Site ρ} (sound : s.Sound) (h : s.Leads s') : s'.Sound := by
  cases h with
  | stays => exact sound
  | enters hk ha => exact sound.entered ha (sound.lists _ _ hk).2.2

theorem attached {s : Site ρ} (sound : s.Sound) {h : Handle} (hk : s.store.Knows h)
    (hfree : s.store.owner? h = none) : Sound
      { s with
        store := s.store.setOwner h s.machine.id
        machine := { s.machine with table := s.machine.table.insert h.key h } } := by
  have hg := Store.grows_setOwner hfree s.machine.id
  refine ⟨?_, hg.owner? sound.owns, hg.knows sound.knows, ?_⟩
  · exact (sound.lists.grows hg).insert (Store.owner?_setOwner_self hk _) (hg.knows hk)
  · exact (Store.contains_insert _ _ _ _).mpr (.inr sound.error_listed)

theorem did {s s' : Site ρ} {op : Op} (sound : s.Sound) (h : s.Did op s')
    (honest : op.Honest s.store) : s'.Sound := by
  cases h with
  | nothing => exact sound
  | noted | edited => exact sound.grows (.refl _) rfl rfl rfl
  | @moved how target g hr ha =>
    cases target with
    | key key => exact sound.entered ha (sound.lists _ _ (Machine.decode_eq_ok_iff.mp hr)).2.2
    | handle g' =>
      obtain rfl : g' = g := by simpa [resolve] using hr
      exact sound.entered ha honest
  | attached _ hfree => exact sound.attached honest hfree
  | @stacked _ frames _ _ hl => exact (sound.withFrames frames).leads hl

theorem deed {e : Execution ρ} {s' : Site ρ} (sound : e.site.Sound) (honest : e.Honest)
    (h : e.Deed s') : s'.Sound := by
  cases h with
  | idle => exact sound
  | performed hf hd =>
    rw [Execution.Honest, hf] at honest
    exact sound.did hd honest
  | wrapped => exact sound.grows (Store.grows_alloc _ _) rfl rfl rfl
  | @activated _ frames _ _ _ hl => exact (sound.begun.withFrames frames).leads hl

/-- Entering a state that is listed leaves the machine sound. -/
theorem entered_listed {s : Site ρ} (sound : s.Sound) {key : Key} {h : Handle}
    (hk : s.machine.table.get? key = some h) (hne : key ≠ Key.error) (frames : Stack) :
    ((s.begun.withFrames frames).entered .transit h).Sound := by
  obtain ⟨rfl, howned, hknown⟩ := sound.lists key h hk
  exact (sound.begun.withFrames frames).entered ⟨fun _ => rfl, howned, hne⟩ hknown

theorem key_currentBehaviour {s : Site ρ} (sound : s.Sound) :
    s.currentBehaviour.key = s.machine.current.key := by
  obtain ⟨b, hb, hkey⟩ := sound.knows
  rw [currentBehaviour, hb]
  exact hkey

/-- A first transit fails at a key that is not registered and at the fault state, and nowhere
else. -/
theorem transitTo_eq {s : Site ρ} (sound : s.Sound) (hp : s.machine.progressed = false) (key : Key) :
    s.transitTo key =
      match s.machine.table.get? key with
      | none => .error (.unknownKey key s.machine.name)
      | some h =>
        if key = Key.error then .error (.enterError s.machine.current.key)
        else .ok (s.entered .transit h) := by
  cases hk : s.machine.table.get? key with
  | none => simp only [transitTo, move, resolve, Machine.decode_of_get?_eq_none hk]
  | some h =>
    obtain ⟨rfl, howned, -⟩ := sound.lists key h hk
    simp only [transitTo, move, resolve, Machine.decode_eq_ok_iff.mpr hk]
    by_cases he : h.key = Key.error
    · have ho : s.Owns h := howned
      simp [enterBy, transit, select, commit, hp, he, ho]
    · rw [if_neg he]
      exact transit_eq_ok_iff.mpr ⟨⟨fun _ => hp, howned, he⟩, rfl⟩

theorem settle_transitTo {s : Site ρ} (sound : s.Sound) (hp : s.machine.progressed = false)
    {key : Key} {h : Handle} (hk : s.machine.table.get? key = some h) (hne : key ≠ Key.error) :
    s.settle (s.transitTo key) = (.ok (), s.entered .transit h) := by
  simp only [sound.transitTo_eq hp, hk, if_neg hne, settle]

/-- A call goes through wherever a first transit to the callee would. -/
theorem call_eq {s : Site ρ} (sound : s.Sound) (hp : s.machine.progressed = false) {callee : Key}
    {h : Handle} (hk : s.machine.table.get? callee = some h) (hne : callee ≠ Key.error)
    (argument : Option Value) (returnKey : Key) :
    s.call callee argument returnKey =
      (.ok (), (s.withFrames (.opened returnKey argument :: s.machine.frames)).entered
        .transit h) := by
  obtain ⟨rfl, howned, -⟩ := sound.lists callee h hk
  have ht : (s.withFrames (.opened returnKey argument :: s.machine.frames)).transit h = .ok
      ((s.withFrames (.opened returnKey argument :: s.machine.frames)).entered .transit h) :=
    transit_eq_ok_iff.mpr ⟨⟨fun _ => hp, howned, hne⟩, rfl⟩
  simp only [call, Machine.decode_eq_ok_iff.mpr hk, ht, settle]

end Sound

/-- No key is ever removed from the table. -/
theorem Leads.contains {s s' : Site ρ} {key : Key} (h : s.Leads s')
    (hk : s.machine.table.contains key = true) : s'.machine.table.contains key = true := by
  rw [h.table_eq]
  exact hk

end Site

theorem Site.Did.contains {s s' : Site ρ} {op : Op} {key : Key} (h : s.Did op s')
    (hk : s.machine.table.contains key = true) : s'.machine.table.contains key = true := by
  cases h with
  | nothing | noted | edited | moved => exact hk
  | attached => exact (Store.contains_insert _ _ _ _).mpr (.inr hk)
  | stacked _ hl => exact hl.contains hk

theorem Execution.Deed.contains {e : Execution ρ} {s' : Site ρ} {key : Key} (h : e.Deed s')
    (hk : e.site.machine.table.contains key = true) : s'.machine.table.contains key = true := by
  cases h with
  | idle | wrapped => exact hk
  | activated _ _ hl => exact hl.contains hk
  | performed _ hd => exact hd.contains hk

theorem Site.sound_create {s : Site ρ} (store : Store ρ) (id : MachineId) (kind : MachineKind)
    (given : Option String) (history : History) (observers : List String)
    (hm : s.machine = { (Machine.create store id kind).1 with given, history, observers })
    (hs : s.store = (Machine.create store id kind).2) : s.Sound := by
  have hown := store.owner?_alloc_self
    { owner := some id, behaviour := .constant Key.uninitialized }
  have hknow := store.knows_alloc { owner := some id, behaviour := .constant Key.uninitialized }
  have hg := Store.grows_install id (Store.builtins kind)
    (store.alloc { owner := some id, behaviour := .constant Key.uninitialized }).2
    (Table.empty.insert Key.uninitialized
      (store.alloc { owner := some id, behaviour := .constant Key.uninitialized }).1)
  obtain ⟨hl, hc⟩ := Store.install_lists id (Store.builtins kind) (store.start_lists id)
  refine ⟨?_, ?_, ?_, ?_⟩
  · rw [hm, hs]
    exact hl
  · rw [Owns, hm, hs]
    exact hg.owner? hown
  · rw [hm, hs]
    exact hg.knows hknow
  · rw [hm]
    refine (hc _).mpr (.inl ⟨.constant Key.error, ?_, rfl⟩)
    cases kind <;> exact List.mem_cons_self

theorem Site.Born.sound {s : Site ρ} (born : s.Born) : s.Sound := by
  refine Born.induction (P := Sound) ?_ ?_ ?_ ?_ born
  · intro s s' h hm hs
    exact h.grows (hs ▸ .refl _) (by rw [hm]) (by rw [hm]) (by rw [hm])
  · intro store id kind given limit observers s hm hs
    exact sound_create store id kind given _ observers hm hs
  · exact fun s h s' hs hk hd => hs.did hd hk
  · exact fun s key s' hs hd => hs.did hd trivial

theorem Execution.Run.sound {first e : Execution ρ} {past : List (Execution ρ)}
    (run : Run first past e) (sound : first.site.Sound) : e.site.Sound := by
  induction run with
  | start => exact sound
  | step _ honest next ih => exact ih.deed honest (next_deed next)
  | again p _ _ ih => exact ih
  | meanwhile shelf clock _ grows ih => exact ih.grows grows rfl rfl rfl

theorem Execution.Run.contains {first e : Execution ρ} {past : List (Execution ρ)} {key : Key}
    (run : Run first past e) (hk : first.site.machine.table.contains key = true) :
    e.site.machine.table.contains key = true :=
  run.keeps (P := fun m => m.table.contains key = true) (fun deed => deed.contains) hk

/-- A step invokes the state that is current. -/
theorem Execution.behaviour?_of_activated {e : Execution ρ} (sound : e.site.Sound)
    {b : Behaviour ρ} (ha : e.activated? = some b) :
    e.site.store.behaviour? e.site.machine.current = some b := by
  obtain ⟨-, -, hb⟩ := activated?_eq_some_iff.mp ha
  obtain ⟨b', hb', -⟩ := sound.knows
  rw [Site.currentBehaviour, hb'] at hb
  exact hb'.trans (congrArg some hb)

theorem Site.Reachable.sound {s : Site ρ} (h : s.Reachable) : s.Sound := by
  obtain ⟨first, p, past, e, born, run, rfl⟩ := h
  exact run.sound born.sound

end StateEngine
