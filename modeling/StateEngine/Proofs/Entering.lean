import Mathlib.Tactic.SplitIfs
import StateEngine.Site

/-!
# Entering a state

All ways into another state come down to one check and one change of the site: `Admits` is the
check, `entered` the change.
-/

namespace StateEngine

namespace Machine

theorem decode_eq_ok_iff {m : Machine} {key : Key} {h : Handle} :
    m.decode key = .ok h ↔ m.table.get? key = some h := by
  unfold decode
  cases m.table.get? key <;> simp

theorem decode_of_get?_eq_none {m : Machine} {key : Key} (h : m.table.get? key = none) :
    m.decode key = .error (.unknownKey key m.name) := by
  unfold decode
  rw [h]

theorem demand_eq_true_iff {m : Machine} :
    m.demand = .ok true ↔ m.current.key ≠ Key.done ∧ m.current.key ≠ Key.error ∧
      m.current.key ≠ Key.uninitialized ∧ m.progressed = true := by
  unfold demand
  split_ifs with hd he hu
  · exact iff_of_false nofun fun h => h.1 hd
  · exact iff_of_false nofun fun h => h.2.1 he
  · exact iff_of_false nofun fun h => h.2.2.1 hu
  · simp [hd, he, hu]

/-- A step finds no state to invoke exactly when the machine is done, or when it stands in a state
that can be invoked and bears no mark. -/
theorem demand_eq_false_iff {m : Machine} :
    m.demand = .ok false ↔ m.current.key = Key.done ∨
      (m.current.key ≠ Key.error ∧ m.current.key ≠ Key.uninitialized ∧
        m.progressed = false) := by
  unfold demand
  split_ifs with hd he hu
  · exact iff_of_true rfl (.inl hd)
  · exact iff_of_false nofun fun h => h.elim hd fun h => h.1 he
  · exact iff_of_false nofun fun h => h.elim hd fun h => h.2.1 hu
  · simp [hd, he, hu]

end Machine

namespace Site

variable {ρ : Type}

@[simp] theorem withFrames_frames (s : Site ρ) (frames : Stack) :
    (s.withFrames frames).machine.frames = frames := rfl

@[simp] theorem withFrames_table (s : Site ρ) (frames : Stack) :
    (s.withFrames frames).machine.table = s.machine.table := rfl

@[simp] theorem withFrames_name (s : Site ρ) (frames : Stack) :
    (s.withFrames frames).machine.name = s.machine.name := rfl

@[simp] theorem withFrames_current (s : Site ρ) (frames : Stack) :
    (s.withFrames frames).machine.current = s.machine.current := rfl

@[simp] theorem withFrames_progressed (s : Site ρ) (frames : Stack) :
    (s.withFrames frames).machine.progressed = s.machine.progressed := rfl

@[simp] theorem withFrames_store (s : Site ρ) (frames : Stack) :
    (s.withFrames frames).store = s.store := rfl

@[simp] theorem owns_withFrames (s : Site ρ) (frames : Stack) (h : Handle) :
    (s.withFrames frames).Owns h ↔ s.Owns h := Iff.rfl

/-- When a move into a state goes through. -/
def Admits (s : Site ρ) (how : Move) (h : Handle) : Prop :=
  (how ≠ .reset → s.machine.progressed = false) ∧ s.Owns h ∧ h.key ≠ Key.error

/-- The site after a move into a state. -/
def entered (s : Site ρ) (how : Move) (h : Handle) : Site ρ :=
  { s with
    machine := s.machine.enter h s.clock
    journal := s.journal ++
      if how = .transit then
        s.machine.observers.map fun o => .notified o s.machine.current.key h.key
      else [] }

@[simp] theorem entered_frames (s : Site ρ) (how : Move) (h : Handle) :
    (s.entered how h).machine.frames = s.machine.frames := rfl

@[simp] theorem entered_table (s : Site ρ) (how : Move) (h : Handle) :
    (s.entered how h).machine.table = s.machine.table := rfl

@[simp] theorem entered_current (s : Site ρ) (how : Move) (h : Handle) :
    (s.entered how h).machine.current = h := rfl

@[simp] theorem entered_progressed (s : Site ρ) (how : Move) (h : Handle) :
    (s.entered how h).machine.progressed = true := rfl

@[simp] theorem entered_store (s : Site ρ) (how : Move) (h : Handle) :
    (s.entered how h).store = s.store := rfl

@[simp] theorem owns_entered (s : Site ρ) (how : Move) (h g : Handle) :
    (s.entered how h).Owns g ↔ s.Owns g := Iff.rfl

theorem commit_eq_ok_iff {s s' : Site ρ} {h : Handle} :
    s.commit h = .ok s' ↔
      s.Owns h ∧ h.key ≠ Key.error ∧ s' = { s with machine := s.machine.enter h s.clock } := by
  unfold commit
  by_cases ho : s.Owns h
  · by_cases he : h.key = Key.error
    · simp [ho, he]
    · simp [ho, he, eq_comm]
  · simp [ho]

/-- A state that is not the machine's own is refused before the fault state is. -/
theorem commit_eq_error_iff {s : Site ρ} {h : Handle} {e : MachineError} :
    s.commit h = .error e ↔ (¬ s.Owns h ∧ e = .foreignState h.key s.machine.name) ∨
      (s.Owns h ∧ h.key = Key.error ∧ e = .enterError s.machine.current.key) := by
  unfold commit
  by_cases ho : s.Owns h
  · by_cases he : h.key = Key.error
    · simp [ho, he, eq_comm]
    · simp [ho, he]
  · simp [ho, eq_comm]

theorem select_eq_ok_iff {s s' : Site ρ} {h : Handle} :
    s.select h = .ok s' ↔ s.Admits .select h ∧ s' = s.entered .select h := by
  unfold select
  by_cases hp : s.machine.progressed = true
  · simp [Admits, hp]
  · rw [if_neg hp, commit_eq_ok_iff]
    simp [Admits, entered, hp, and_assoc]

theorem transit_eq_ok_iff {s s' : Site ρ} {h : Handle} :
    s.transit h = .ok s' ↔ s.Admits .transit h ∧ s' = s.entered .transit h := by
  unfold transit
  have hsame : s.Admits .transit h ↔ s.Admits .select h := by simp [Admits]
  cases hs : s.select h with
  | ok s₁ =>
    obtain ⟨ha, rfl⟩ := select_eq_ok_iff.mp hs
    simp [hsame, ha, entered, announce, Machine.enter, eq_comm]
  | error e =>
    have hn : ¬ s.Admits .select h := fun ha => by
      have := select_eq_ok_iff.mpr ⟨ha, rfl⟩
      rw [hs] at this
      cases this
    simp [hsame, hn]

theorem enterBy_eq_ok_iff {s s' : Site ρ} {how : Move} {h : Handle} :
    s.enterBy how h = .ok s' ↔ s.Admits how h ∧ s' = s.entered how h := by
  cases how with
  | select => exact select_eq_ok_iff
  | transit => exact transit_eq_ok_iff
  | reset =>
    rw [enterBy, commit_eq_ok_iff]
    simp [Admits, entered, and_assoc]

/-- The mark is looked at before the state, unless the move is a reset. -/
theorem enterBy_eq_error_iff {s : Site ρ} {how : Move} {h : Handle} {e : MachineError} :
    s.enterBy how h = .error e ↔
      (how ≠ .reset ∧ s.machine.progressed = true ∧
        e = .alreadyProgressed s.machine.current.key h.key) ∨
      ((how ≠ .reset → s.machine.progressed = false) ∧ s.commit h = .error e) := by
  have hselect : s.select h = .error e ↔
      (s.machine.progressed = true ∧ e = .alreadyProgressed s.machine.current.key h.key) ∨
        (s.machine.progressed = false ∧ s.commit h = .error e) := by
    unfold select
    cases s.machine.progressed <;> simp [eq_comm]
  cases how with
  | select => simpa [enterBy] using hselect
  | reset => simp [enterBy]
  | transit =>
    have htransit : s.transit h = .error e ↔ s.select h = .error e := by
      unfold transit
      cases s.select h <;> simp
    simpa [enterBy] using htransit.trans hselect

theorem move_eq_ok_iff {s s' : Site ρ} {how : Move} {target : Target} :
    s.move how target = .ok s' ↔
      ∃ h, s.resolve target = .ok h ∧ s.Admits how h ∧ s' = s.entered how h := by
  unfold move
  cases s.resolve target with
  | ok h => simp [enterBy_eq_ok_iff]
  | error e => simp

/-- Where a transit to a registered state may lead: it goes through or changes nothing. -/
inductive Leads (s : Site ρ) : Site ρ → Prop where
  | stays : Leads s s
  | enters {key : Key} {h : Handle} : s.machine.table.get? key = some h → s.Admits .transit h →
      Leads s (s.entered .transit h)

theorem leads_settle {s : Site ρ} {r : Except MachineError (Site ρ)}
    (h : ∀ s', r = .ok s' → s.Leads s') : s.Leads (s.settle r).2 := by
  cases r with
  | ok s' => exact h s' rfl
  | error e => exact .stays

theorem leads_transit {s s' : Site ρ} {key : Key} {h : Handle}
    (hk : s.machine.table.get? key = some h) (ht : s.transit h = .ok s') : s.Leads s' := by
  obtain ⟨ha, rfl⟩ := transit_eq_ok_iff.mp ht
  exact .enters hk ha

theorem leads_transitTo {s s' : Site ρ} {key : Key} (ht : s.transitTo key = .ok s') :
    s.Leads s' := by
  obtain ⟨h, hr, ha, rfl⟩ := move_eq_ok_iff.mp ht
  exact .enters (Machine.decode_eq_ok_iff.mp hr) ha

theorem Leads.frames_eq {s s' : Site ρ} (h : s.Leads s') : s'.machine.frames = s.machine.frames := by
  cases h <;> rfl

theorem Leads.store_eq {s s' : Site ρ} (h : s.Leads s') : s'.store = s.store := by
  cases h <;> rfl

theorem Leads.table_eq {s s' : Site ρ} (h : s.Leads s') : s'.machine.table = s.machine.table := by
  cases h <;> rfl

end Site

end StateEngine
