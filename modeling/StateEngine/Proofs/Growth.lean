import StateEngine.Store

/-!
# The store only grows

States are made and never unmade, an owner is set once, and a state keeps its kind and its key. The
body of a routine is the one thing left open: what a routine has captured may change between two
activations, so it may go on as another routine of the same key.
-/

namespace StateEngine

variable {ρ : Type}

namespace Behaviour

/-- What a behaviour may have become later. -/
def Continues : Behaviour ρ → Behaviour ρ → Prop
  | .routine key _, after => ∃ body, after = .routine key body
  | before, after => after = before

theorem Continues.refl (b : Behaviour ρ) : b.Continues b := by
  cases b with
  | routine key body => exact ⟨body, rfl⟩
  | constant | pop | iterate | iterateNext => rfl

theorem Continues.trans {a b c : Behaviour ρ} (hab : a.Continues b) (hbc : b.Continues c) :
    a.Continues c := by
  cases a with
  | routine key body =>
    obtain ⟨between, rfl⟩ := hab
    exact hbc
  | constant | pop | iterate | iterateNext =>
    cases hab
    exact hbc

theorem Continues.key_eq {a b : Behaviour ρ} (h : a.Continues b) : b.key = a.key := by
  cases a with
  | routine key body =>
    obtain ⟨after, rfl⟩ := h
    rfl
  | constant | pop | iterate | iterateNext =>
    cases h
    rfl

/-- Only a constant goes on as one. -/
theorem Continues.eq_of_constant {a : Behaviour ρ} {key : Key} (h : a.Continues (.constant key)) :
    a = .constant key := by
  cases a with
  | routine own body =>
    obtain ⟨after, ha⟩ := h
    cases ha
  | constant | pop | iterate | iterateNext => exact h.symm

/-- The built-in state of calls stays what it is. -/
theorem Continues.eq_pop_iff {a b : Behaviour ρ} (h : a.Continues b) : b = .pop ↔ a = .pop := by
  cases a with
  | routine key body =>
    obtain ⟨after, rfl⟩ := h
    simp
  | constant | pop | iterate | iterateNext =>
    cases h
    simp

end Behaviour

namespace Store

/-- What the state of a handle does. -/
def behaviour? (store : Store ρ) (h : Handle) : Option (Behaviour ρ) :=
  (store.cell? h).map Cell.behaviour

/-- The handle stands for a state of the store and carries the key of that state. -/
def Knows (store : Store ρ) (h : Handle) : Prop :=
  ∃ b, store.behaviour? h = some b ∧ b.key = h.key

/-- What the store may have become later. -/
def Grows (before after : Store ρ) : Prop :=
  ∀ h cell, before.cell? h = some cell → ∃ cell', after.cell? h = some cell' ∧
    cell.behaviour.Continues cell'.behaviour ∧ ∀ id, cell.owner = some id → cell'.owner = some id

theorem Grows.refl (store : Store ρ) : store.Grows store :=
  fun _ cell h => ⟨cell, h, Behaviour.Continues.refl _, fun _ ho => ho⟩

theorem Grows.trans {a b c : Store ρ} (hab : a.Grows b) (hbc : b.Grows c) : a.Grows c := by
  intro h cell hc
  obtain ⟨cell₁, h₁, hb₁, ho₁⟩ := hab h cell hc
  obtain ⟨cell₂, h₂, hb₂, ho₂⟩ := hbc h cell₁ h₁
  exact ⟨cell₂, h₂, hb₁.trans hb₂, fun id ho => ho₂ id (ho₁ id ho)⟩

theorem Grows.behaviour? {a b : Store ρ} (hab : a.Grows b) {h : Handle} {before : Behaviour ρ}
    (hb : a.behaviour? h = some before) :
    ∃ after, b.behaviour? h = some after ∧ before.Continues after := by
  obtain ⟨cell, hc, rfl⟩ := Option.map_eq_some_iff.mp hb
  obtain ⟨cell', hc', hcont, -⟩ := hab h cell hc
  exact ⟨cell'.behaviour, by rw [Store.behaviour?, hc', Option.map_some], hcont⟩

theorem Grows.knows {a b : Store ρ} (hab : a.Grows b) {h : Handle} (hk : a.Knows h) :
    b.Knows h := by
  obtain ⟨before, hb, hkey⟩ := hk
  obtain ⟨after, ha, hcont⟩ := hab.behaviour? hb
  exact ⟨after, ha, hcont.key_eq.trans hkey⟩

theorem Grows.owner? {a b : Store ρ} (hab : a.Grows b) {h : Handle} {id : MachineId}
    (ho : a.owner? h = some id) : b.owner? h = some id := by
  obtain ⟨cell, hc, ho⟩ := Option.bind_eq_some_iff.mp ho
  obtain ⟨cell', hc', -, howner⟩ := hab h cell hc
  exact Option.bind_eq_some_iff.mpr ⟨cell', hc', howner id ho⟩

theorem cell?_alloc_self (store : Store ρ) (cell : Cell ρ) :
    (store.alloc cell).2.cell? (store.alloc cell).1 = some cell := by
  simp [alloc, cell?]

theorem grows_alloc (store : Store ρ) (cell : Cell ρ) : store.Grows (store.alloc cell).2 := by
  intro h old hc
  have hlt : h.index < store.cells.size := (Array.getElem?_eq_some_iff.mp hc).1
  refine ⟨old, ?_, Behaviour.Continues.refl _, fun _ ho => ho⟩
  simp only [alloc, cell?, Array.getElem?_push, Nat.ne_of_lt hlt, if_false]
  exact hc

theorem knows_alloc (store : Store ρ) (cell : Cell ρ) :
    (store.alloc cell).2.Knows (store.alloc cell).1 :=
  ⟨cell.behaviour, by rw [behaviour?, cell?_alloc_self, Option.map_some], rfl⟩

theorem owner?_alloc_self (store : Store ρ) (cell : Cell ρ) :
    (store.alloc cell).2.owner? (store.alloc cell).1 = cell.owner := by
  rw [owner?, cell?_alloc_self, Option.bind_some]

theorem cell?_setOwner (store : Store ρ) (h g : Handle) (id : MachineId) :
    (store.setOwner h id).cell? g =
      if h.index = g.index then (store.cell? g).map fun cell => { cell with owner := some id }
      else store.cell? g := by
  simp only [setOwner, cell?, Array.getElem?_modify]

theorem bind_eq_ok_iff {store after : Store ρ} {h : Handle} {id : MachineId} :
    store.bind h id = .ok after ↔ store.owner? h = none ∧ after = store.setOwner h id := by
  unfold bind
  cases store.owner? h with
  | some owner => simp
  | none => simp [eq_comm]

theorem grows_setOwner {store : Store ρ} {h : Handle} (free : store.owner? h = none)
    (id : MachineId) : store.Grows (store.setOwner h id) := by
  intro g cell hc
  rw [cell?_setOwner]
  by_cases hi : h.index = g.index
  · have hh : store.cell? h = some cell := by
      rw [← hc, cell?, cell?, hi]
    have hfree : cell.owner = none := by
      simpa [owner?, hh] using free
    refine ⟨{ cell with owner := some id }, by rw [if_pos hi, hc, Option.map_some],
      Behaviour.Continues.refl _, fun _ ho => ?_⟩
    rw [hfree] at ho
    cases ho
  · exact ⟨cell, by rw [if_neg hi, hc], Behaviour.Continues.refl _, fun _ ho => ho⟩

theorem owner?_setOwner_self {store : Store ρ} {h : Handle} (known : store.Knows h)
    (id : MachineId) : (store.setOwner h id).owner? h = some id := by
  obtain ⟨b, hb, -⟩ := known
  obtain ⟨cell, hc, -⟩ := Option.map_eq_some_iff.mp hb
  simp [owner?, cell?_setOwner, hc]

/-- Every state of the store does what `P` says. -/
def All (P : Behaviour ρ → Prop) (store : Store ρ) : Prop :=
  ∀ h b, store.behaviour? h = some b → P b

section

variable {P : Behaviour ρ → Prop}

theorem all_empty : (empty : Store ρ).All P := by
  intro h b hb
  simp [behaviour?, cell?, empty] at hb

theorem All.alloc {store : Store ρ} (all : store.All P) {cell : Cell ρ} (hcell : P cell.behaviour) :
    (store.alloc cell).2.All P := by
  intro h b hb
  simp only [behaviour?, cell?, Store.alloc, Array.getElem?_push] at hb
  split at hb
  · obtain rfl : cell.behaviour = b := by simpa using hb
    exact hcell
  · exact all h b hb

theorem All.install {store : Store ρ} (all : store.All P) (owner : MachineId)
    {behaviours : List (Behaviour ρ)} (hall : ∀ b ∈ behaviours, P b) (table : Table Handle) :
    (install owner behaviours store table).1.All P := by
  induction behaviours generalizing store table with
  | nil => exact all
  | cons b rest ih =>
    exact ih (all.alloc (hall b List.mem_cons_self))
      (fun c hc => hall c (List.mem_cons_of_mem _ hc)) _

theorem All.create {store : Store ρ} (all : store.All P) (id : MachineId) {kind : MachineKind}
    (hstart : P (.constant Key.uninitialized)) (hall : ∀ b ∈ builtins kind, P b) :
    (Machine.create store id kind).2.All P :=
  (all.alloc hstart).install id hall _

theorem behaviour?_setOwner (store : Store ρ) (h g : Handle) (id : MachineId) :
    (store.setOwner h id).behaviour? g = store.behaviour? g := by
  rw [behaviour?, cell?_setOwner, behaviour?]
  split
  · rw [Option.map_map]
    rfl
  · rfl

theorem All.setOwner {store : Store ρ} (all : store.All P) (h : Handle) (id : MachineId) :
    (store.setOwner h id).All P := by
  intro g b hb
  rw [behaviour?_setOwner] at hb
  exact all g b hb

end

/-- What was in the store is there still, and behaves as before. -/
structure Extends (before after : Store ρ) : Prop where
  grows : before.Grows after
  behaves : ∀ {h b}, before.behaviour? h = some b → after.behaviour? h = some b

theorem Extends.refl (store : Store ρ) : store.Extends store := ⟨.refl store, id⟩

theorem Extends.trans {a b c : Store ρ} (hab : a.Extends b) (hbc : b.Extends c) : a.Extends c :=
  ⟨hab.grows.trans hbc.grows, fun hb => hbc.behaves (hab.behaves hb)⟩

theorem extends_alloc (store : Store ρ) (cell : Cell ρ) : store.Extends (store.alloc cell).2 := by
  refine ⟨store.grows_alloc cell, fun {h b} hb => ?_⟩
  obtain ⟨old, hold, -⟩ := Option.map_eq_some_iff.mp hb
  have hlt : h.index < store.cells.size := (Array.getElem?_eq_some_iff.mp hold).1
  rw [← hb]
  simp only [behaviour?, cell?, alloc, Array.getElem?_push, Nat.ne_of_lt hlt, if_false]

theorem extends_setOwner {store : Store ρ} {h : Handle} (free : store.owner? h = none)
    (id : MachineId) : store.Extends (store.setOwner h id) :=
  ⟨grows_setOwner free id, fun hb => (behaviour?_setOwner _ _ _ id).trans hb⟩

theorem extends_install (owner : MachineId) (behaviours : List (Behaviour ρ)) (store : Store ρ)
    (table : Table Handle) : store.Extends (install owner behaviours store table).1 := by
  induction behaviours generalizing store table with
  | nil => exact .refl store
  | cons b rest ih => exact (store.extends_alloc _).trans (ih _ _)

theorem grows_install (owner : MachineId) (behaviours : List (Behaviour ρ)) (store : Store ρ)
    (table : Table Handle) : store.Grows (install owner behaviours store table).1 :=
  (store.extends_install owner behaviours table).grows

end Store

namespace Machine

theorem extends_create (store : Store ρ) (id : MachineId) (kind : MachineKind) :
    store.Extends (create store id kind).2 :=
  (store.extends_alloc _).trans (Store.extends_install _ _ _ _)

theorem grows_create (store : Store ρ) (id : MachineId) (kind : MachineKind) :
    store.Grows (create store id kind).2 :=
  (extends_create store id kind).grows

end Machine

end StateEngine
