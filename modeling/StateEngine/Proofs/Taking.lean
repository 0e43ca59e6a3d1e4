import StateEngine.Proofs.Ownership

/-!
# Taking states

A machine takes a state if its key is not reserved and nobody has it. Taking several states one
after another gives the machine all those before the first that is refused, and concerns no other
state.
-/

namespace StateEngine

variable {ρ : Type}

/-- The keys that a new machine lists. -/
def MachineKind.builtinKeys : MachineKind → List Key
  | .flat => Key.reserved
  | .stack => Key.reserved ++ [Key.pop, Key.iterate, Key.iterateNext]

namespace Store

/-- The state can be taken: its key is not reserved and it has no owner. -/
def Grants (store : Store ρ) (h : Handle) : Prop :=
  Key.isReserved h.key = false ∧ store.owner? h = none

/-- Why a state cannot be taken. -/
inductive Refuses (store : Store ρ) (h : Handle) : MachineError → Prop where
  | reserved : Key.isReserved h.key = true → Refuses store h (.reservedKey h.key)
  | bound {owner : MachineId} : Key.isReserved h.key = false → store.owner? h = some owner →
      Refuses store h (.alreadyBound h.key owner)

theorem grants_or_refuses (store : Store ρ) (h : Handle) :
    store.Grants h ∨ ∃ e, store.Refuses h e := by
  cases hk : Key.isReserved h.key with
  | true => exact .inr ⟨_, .reserved hk⟩
  | false =>
    cases ho : store.owner? h with
    | none => exact .inl ⟨hk, ho⟩
    | some owner => exact .inr ⟨_, .bound hk ho⟩

/-- Whether a state can be taken depends on the store by its owner alone. -/
theorem Grants.congr {store after : Store ρ} {h : Handle} (ho : after.owner? h = store.owner? h) :
    after.Grants h ↔ store.Grants h := by
  rw [Grants, Grants, ho]

theorem Refuses.congr {store after : Store ρ} {h : Handle} {e : MachineError}
    (refused : store.Refuses h e) (ho : after.owner? h = store.owner? h) : after.Refuses h e := by
  cases refused with
  | reserved hk => exact .reserved hk
  | bound hk howner => exact .bound hk (ho.trans howner)

/-- In a list of states there is a first that is refused, unless all can be taken. -/
theorem grants_all_or_refuses (store : Store ρ) (states : List Handle) :
    (∀ h ∈ states, store.Grants h) ∨
      ∃ taken h rest e, states = taken ++ h :: rest ∧ (∀ g ∈ taken, store.Grants g) ∧
        store.Refuses h e := by
  induction states with
  | nil => exact .inl fun h hh => absurd hh List.not_mem_nil
  | cons g states ih =>
    rcases store.grants_or_refuses g with hgrant | ⟨e, hrefuse⟩
    · rcases ih with hall | ⟨taken, h, rest, e, rfl, htaken, hrefuse⟩
      · exact .inl (List.forall_mem_cons.mpr ⟨hgrant, hall⟩)
      · exact .inr ⟨g :: taken, h, rest, e, rfl, List.forall_mem_cons.mpr ⟨hgrant, htaken⟩, hrefuse⟩
    · exact .inr ⟨[], g, states, e, rfl, fun _ hg => absurd hg List.not_mem_nil, hrefuse⟩

/-- Two handles of one state are the same. -/
theorem Knows.eq_of_index {store : Store ρ} {h g : Handle} (hh : store.Knows h)
    (hg : store.Knows g) (hi : h.index = g.index) : h = g := by
  have hkey := hh.key_eq hg hi
  cases h
  cases g
  simp only at hi hkey
  rw [hi, hkey]

theorem Knows.index_lt {store : Store ρ} {h : Handle} (hk : store.Knows h) :
    h.index < store.cells.size := by
  obtain ⟨b, hb, -⟩ := hk
  obtain ⟨cell, hc, -⟩ := Option.map_eq_some_iff.mp hb
  exact (Array.getElem?_eq_some_iff.mp hc).1

/-- A new state is none of those that are there. -/
theorem owner?_alloc_of_knows {store : Store ρ} {h : Handle} (hk : store.Knows h) (cell : Cell ρ) :
    (store.alloc cell).2.owner? h = store.owner? h :=
  (store.owner?_alloc cell h).trans (if_neg (Nat.ne_of_lt hk.index_lt))

theorem owner?_install (owner : MachineId) (behaviours : List (Behaviour ρ)) {store : Store ρ}
    (table : Table Handle) {h : Handle} (hk : store.Knows h) :
    (install owner behaviours store table).1.owner? h = store.owner? h := by
  induction behaviours generalizing store table with
  | nil => rfl
  | cons b rest ih =>
    rw [install]
    exact (ih _ ((store.grows_alloc _).knows hk)).trans (owner?_alloc_of_knows hk _)

end Store

namespace Machine

/-- Making a machine takes none of the states that are there. -/
theorem owner?_create {store : Store ρ} (id : MachineId) (kind : MachineKind) {h : Handle}
    (hk : store.Knows h) : (create store id kind).2.owner? h = store.owner? h :=
  (Store.owner?_install id _ _ ((store.grows_alloc _).knows hk)).trans
    (Store.owner?_alloc_of_knows hk _)

theorem contains_create (store : Store ρ) (id : MachineId) (kind : MachineKind) (key : Key) :
    (create store id kind).1.table.contains key = true ↔ key ∈ kind.builtinKeys := by
  refine ((Store.install_lists id (Store.builtins kind) (store.start_lists id)).2 key).trans ?_
  rw [Store.contains_insert]
  cases kind <;>
    simp [Store.builtins, MachineKind.builtinKeys, Behaviour.key, Key.reserved, Table.contains,
      eq_comm, or_comm, or_left_comm, or_assoc]

end Machine

namespace Site

/-- The site after the machine has taken a state. -/
def taking (s : Site ρ) (h : Handle) : Site ρ :=
  { s with
    store := s.store.setOwner h s.machine.id
    machine := { s.machine with table := s.machine.table.insert h.key h } }

def takingAll (s : Site ρ) (states : List Handle) : Site ρ := states.foldl taking s

@[simp] theorem takingAll_nil (s : Site ρ) : s.takingAll [] = s := rfl

@[simp] theorem takingAll_cons (s : Site ρ) (h : Handle) (states : List Handle) :
    s.takingAll (h :: states) = (s.taking h).takingAll states := rfl

theorem attach_of_grants {s : Site ρ} {h : Handle} (grant : s.store.Grants h) :
    s.attach h = .ok (s.machine.table.get? h.key, s.taking h) :=
  attach_eq_ok_iff.mpr ⟨by rw [grant.1]; decide, grant.2, rfl⟩

theorem attach_of_refuses {s : Site ρ} {h : Handle} {e : MachineError}
    (refused : s.store.Refuses h e) : s.attach h = .error e := by
  rw [attach_eq_error_iff]
  cases refused with
  | reserved hk => exact .inl ⟨hk, rfl⟩
  | bound hk ho => exact .inr ⟨hk, _, ho, rfl⟩

theorem owner?_taking {s : Site ρ} {g h : Handle} (hg : s.store.Knows g) (hh : s.store.Knows h) :
    (s.taking g).store.owner? h = if h = g then some s.machine.id else s.store.owner? h := by
  split
  · rename_i heq
    exact heq ▸ Store.owner?_setOwner_self hg _
  · rename_i hne
    exact s.store.owner?_setOwner_of_ne (fun hi => hne (hg.eq_of_index hh hi).symm) _

theorem knows_taking {s : Site ρ} {g h : Handle} (hh : s.store.Knows h) :
    (s.taking g).store.Knows h := by
  obtain ⟨b, hb, hkey⟩ := hh
  exact ⟨b, (Store.behaviour?_setOwner _ _ _ _).trans hb, hkey⟩

/-- Taking states sets the owner of these states and of no others. -/
theorem owner?_takingAll {s : Site ρ} {states : List Handle}
    (known : ∀ g ∈ states, s.store.Knows g) {h : Handle} (hh : s.store.Knows h) :
    (s.takingAll states).store.owner? h =
      if h ∈ states then some s.machine.id else s.store.owner? h := by
  induction states generalizing s with
  | nil => rw [takingAll_nil, if_neg List.not_mem_nil]
  | cons g states ih =>
    obtain ⟨hg, hrest⟩ := List.forall_mem_cons.mp known
    have hmore := ih (s := s.taking g) (fun g' hg' => knows_taking (hrest g' hg')) (knows_taking hh)
    rw [takingAll_cons, hmore, owner?_taking hg hh]
    by_cases hin : h ∈ states
    · rw [if_pos hin, if_pos (List.mem_cons_of_mem g hin)]
      rfl
    · by_cases heq : h = g
      · rw [if_neg hin, if_pos heq, if_pos (List.mem_cons.mpr (.inl heq))]
      · rw [if_neg hin, if_neg heq, if_neg fun hm => (List.mem_cons.mp hm).elim heq hin]

theorem contains_takingAll (s : Site ρ) (states : List Handle) (key : Key) :
    (s.takingAll states).machine.table.contains key = true ↔
      key ∈ states.map Handle.key ∨ s.machine.table.contains key = true := by
  induction states generalizing s with
  | nil => simp
  | cons g states ih =>
    rw [takingAll_cons, ih, taking, Store.contains_insert, List.map_cons, List.mem_cons]
    tauto

/-- Taking states concerns the table and the store only. -/
theorem takingAll_eq (s : Site ρ) (states : List Handle) :
    s.takingAll states =
      { s with
        store := (s.takingAll states).store
        machine := { s.machine with table := (s.takingAll states).machine.table } } := by
  induction states generalizing s with
  | nil => rfl
  | cons g states ih =>
    rw [takingAll_cons]
    exact ih (s.taking g)

theorem get?_takingAll_of_not_mem (s : Site ρ) {states : List Handle} {key : Key}
    (hkey : key ∉ states.map Handle.key) :
    (s.takingAll states).machine.table.get? key = s.machine.table.get? key := by
  induction states generalizing s with
  | nil => rfl
  | cons g states ih =>
    rw [List.map_cons, List.mem_cons, not_or] at hkey
    obtain ⟨hne, hrest⟩ := hkey
    rw [takingAll_cons, ih _ hrest]
    exact (Table.get?_insert ..).trans (if_neg hne)

/-- Where the keys are distinct each state that is taken stands under its key. -/
theorem get?_takingAll_of_mem {s : Site ρ} {states : List Handle}
    (distinct : (states.map Handle.key).Nodup) {h : Handle} (hh : h ∈ states) :
    (s.takingAll states).machine.table.get? h.key = some h := by
  induction states generalizing s with
  | nil => cases hh
  | cons g states ih =>
    obtain ⟨hnew, hrest⟩ := List.nodup_cons.mp distinct
    rw [takingAll_cons]
    rcases List.mem_cons.mp hh with rfl | hh
    · rw [get?_takingAll_of_not_mem _ hnew]
      exact (Table.get?_insert ..).trans (if_pos rfl)
    · exact ih hrest hh

theorem behaviour?_takingAll (s : Site ρ) (states : List Handle) (h : Handle) :
    (s.takingAll states).store.behaviour? h = s.store.behaviour? h := by
  induction states generalizing s with
  | nil => rfl
  | cons g states ih => exact (ih (s.taking g)).trans (Store.behaviour?_setOwner ..)

/-- A first selection fails at a key that is not registered and at the fault state, and nowhere
else. -/
theorem Sound.move_select_eq {s : Site ρ} (sound : s.Sound) (hp : s.machine.progressed = false)
    (key : Key) :
    s.move .select (.key key) =
      match s.machine.table.get? key with
      | none => .error (.unknownKey key s.machine.name)
      | some h =>
        if key = Key.error then .error (.enterError s.machine.current.key)
        else .ok (s.entered .select h) := by
  cases hk : s.machine.table.get? key with
  | none => simp only [move, resolve, Machine.decode_of_get?_eq_none hk]
  | some h =>
    obtain ⟨rfl, howned, -⟩ := sound.lists key h hk
    simp only [move, resolve, Machine.decode_eq_ok_iff.mpr hk]
    by_cases he : h.key = Key.error
    · have ho : s.Owns h := howned
      simp [enterBy, select, commit, hp, he, ho]
    · rw [if_neg he]
      exact select_eq_ok_iff.mpr ⟨⟨fun _ => hp, howned, he⟩, rfl⟩

end Site

namespace Builder

/-- States with distinct keys are taken one after another, as far as they are granted. -/
theorem attachAll_append {taken rest : List Handle} {s : Site ρ}
    (known : ∀ g ∈ taken, s.store.Knows g) (distinct : (taken.map Handle.key).Nodup)
    (granted : ∀ g ∈ taken, s.store.Grants g) :
    attachAll (taken ++ rest) s = attachAll rest (s.takingAll taken) := by
  induction taken generalizing s with
  | nil => rfl
  | cons g taken ih =>
    obtain ⟨hg, hknown⟩ := List.forall_mem_cons.mp known
    obtain ⟨hgrant, hgrants⟩ := List.forall_mem_cons.mp granted
    obtain ⟨hnew, hdistinct⟩ := List.nodup_cons.mp distinct
    -- The others have other keys, so they are other states and still have no owner.
    have hrest : ∀ h ∈ taken, (s.taking g).store.Grants h := by
      intro h hh
      have hne : h ≠ g := fun heq => hnew (heq ▸ List.mem_map_of_mem hh)
      have howner := Site.owner?_taking hg (hknown h hh)
      rw [if_neg hne] at howner
      exact (Store.Grants.congr howner).mpr (hgrants h hh)
    rw [List.cons_append, attachAll, Site.attach_of_grants hgrant]
    exact ih (fun h hh => Site.knows_taking (hknown h hh)) hdistinct hrest

end Builder

end StateEngine
