import StateEngine.Proofs.Agreement
import StateEngine.Proofs.Driving
import StateEngine.Proofs.Recording

/-!
# Marches

A march is a stretch of steps that each invoke a state and report a transition. On the way the
states and the table stay those of the site where it began, and every transition is recorded. Both
drivers pass through a march: what they answer at its end they answer at its beginning.
-/

namespace StateEngine

variable {ρ : Type}

theorem Key.ne_error_of_free {key : Key} (hfree : Key.isReserved key = false) :
    key ≠ Key.error := by
  rintro rfl
  exact absurd hfree (by decide)

theorem Machine.demand_of_free {m : Machine} (hfree : Key.isReserved m.current.key = false)
    (hp : m.progressed = true) : m.demand = .ok true := by
  have hnot : m.current.key ∉ Key.reserved := by simpa [Key.isReserved] using hfree
  simp only [Key.reserved, List.mem_cons, List.not_mem_nil, or_false, not_or] at hnot
  exact demand_eq_true_iff.mpr ⟨hnot.2.2, hnot.1, hnot.2.1, hp⟩

namespace Site

section Pop

variable {s : Site ρ} {top : Frame} {rest : Stack} {h : Handle}

theorem Sound.demand_of_pop (sound : s.Sound) (hb : s.currentBehaviour = .pop)
    (hp : s.machine.progressed = true) : s.machine.demand = .ok true := by
  have hkey : Key.pop = s.machine.current.key := by
    have hcurrent := sound.key_currentBehaviour
    rwa [hb] at hcurrent
  exact Machine.demand_of_free (hkey ▸ by decide) hp

/-- An activation of `POP` that finds the return key registered. -/
theorem Sound.steps_pop (sound : s.Sound) (hb : s.currentBehaviour = .pop)
    (hp : s.machine.progressed = true) (hframes : s.machine.frames = top :: rest)
    (hh : s.machine.table.get? top.returnKey = some h) (hne : top.returnKey ≠ Key.error) :
    s.Steps (.ok true)
      ((s.begun.withFrames (Builtin.delivered top.result rest)).entered .transit h) := by
  have hpop := Builtin.pop_of_listed sound.begun rfl hframes hh hne
  have hi := Invokes.builtin hb rfl
  rw [hpop] at hi
  exact .returned (sound.demand_of_pop hb hp) hi

end Pop

/-- Steps that each invoke a state and report a transition, with the keys of those states. -/
inductive Marches : Site ρ → List Key → Site ρ → Prop where
  | nil {s : Site ρ} : Marches s [] s
  | cons {s s₁ s' : Site ρ} {keys : List Key} : s.machine.demand = .ok true →
      s.Answers .step (.ok true) s₁ → Marches s₁ keys s' →
      Marches s (s.machine.current.key :: keys) s'

namespace Marches

variable {s s₁ s' : Site ρ} {keys : List Key}

theorem append {more : List Key} (h : s.Marches keys s₁) (h' : s₁.Marches more s') :
    s.Marches (keys ++ more) s' := by
  induction h with
  | nil => exact h'
  | cons hd hs _ ih => exact .cons hd hs (ih h')

theorem single (hd : s.machine.demand = .ok true) (hs : s.Steps (.ok true) s') :
    s.Marches [s.machine.current.key] s' :=
  .cons hd hs.answers .nil

theorem goes {r : Except MachineError Unit} (h : s.Marches keys s₁) (hr : s₁.Goes r s') :
    s.Goes r s' := by
  induction h with
  | nil => exact hr
  | cons _ hs _ ih => exact .on (answers_step_iff.mp hs) (ih hr)

theorem finishes {r : Except MachineError Unit} (h : s.Marches keys s₁)
    (hr : s₁.Finishes r s') : s.Finishes r s' := by
  induction h with
  | nil => exact hr
  | cons _ hs _ ih =>
    have hstep := answers_step_iff.mp hs
    exact .on (hstep.not_done nofun) hstep (ih hr)

end Marches

/-- The transitions between two sites lead along the keys, the first of which was entered before, and
are all recorded. -/
def Records (s s' : Site ρ) (path : List Key) : Prop :=
  ∃ log, s'.machine.history = s.machine.history.recordAll log ∧
    s.machine.current.key :: log.map Record.target = path

/-- A state was just entered, above these frames. -/
structure Arrives (s : Site ρ) (h : Handle) (frames : Stack) : Prop where
  current : s.machine.current = h
  progressed : s.machine.progressed = true
  frames : s.machine.frames = frames

/-- The states and the table are those of an earlier site. -/
structure Inherits (s s₀ : Site ρ) : Prop where
  sound : s.Sound
  table : s.machine.table = s₀.machine.table
  store : s.store = s₀.store

namespace Inherits

variable {s s₀ : Site ρ}

theorem entered (h : s.Inherits s₀) {key : Key} {g : Handle} (frames : Stack)
    (hg : s₀.machine.table.get? key = some g) (hne : key ≠ Key.error) :
    ((s.begun.withFrames frames).entered .transit g).Inherits s₀ where
  sound := h.sound.entered_listed (h.table ▸ hg) hne frames
  table := h.table
  store := h.store

theorem demand_eq (h : s.Inherits s₀) {key : Key} {g : Handle} {frames : Stack}
    (hg : s₀.machine.table.get? key = some g) (hfree : Key.isReserved key = false)
    (arrives : s.Arrives g frames) : s.machine.demand = .ok true := by
  obtain ⟨rfl, -⟩ := h.sound.lists _ _ (h.table ▸ hg)
  exact Machine.demand_of_free (arrives.current ▸ hfree) arrives.progressed

theorem currentBehaviour_eq (h : s.Inherits s₀) {b : Behaviour ρ} {g : Handle} {frames : Stack}
    (hb : s₀.store.behaviour? g = some b) (arrives : s.Arrives g frames) :
    s.currentBehaviour = b := by
  rw [currentBehaviour, arrives.current, h.store, hb]
  rfl

end Inherits

/-- A march from `s` to `s'`, where the state `g` was just entered above `frames`. The states and
the table are still those of `s₀`, and no state was invoked but those of the march. -/
structure Travels (s₀ s : Site ρ) (keys : List Key) (g : Handle) (frames : Stack) (s' : Site ρ) :
    Prop where
  marches : s.Marches keys s'
  inherits : s'.Inherits s₀
  arrives : s'.Arrives g frames
  steps : s'.machine.steps = s.machine.steps + keys.length
  name : s'.machine.name = s.machine.name
  records : s.Records s' (keys ++ [g.key])

theorem Travels.trans {s₀ s s₁ s' : Site ρ} {keys more : List Key} {g g' : Handle}
    {frames frames' : Stack} (h : Travels s₀ s keys g frames s₁)
    (h' : Travels s₀ s₁ more g' frames' s') : Travels s₀ s (keys ++ more) g' frames' s' where
  marches := h.marches.append h'.marches
  inherits := h'.inherits
  arrives := h'.arrives
  steps := by rw [h'.steps, h.steps, List.length_append, Nat.add_assoc]
  name := h'.name.trans h.name
  records := by
    obtain ⟨log, hlog, hpath⟩ := h.records
    obtain ⟨log', hlog', hpath'⟩ := h'.records
    rw [h.arrives.current] at hpath'
    refine ⟨log ++ log', by rw [hlog', hlog, History.recordAll_append], ?_⟩
    rw [List.map_append, ← List.cons_append, hpath, List.append_assoc, List.append_assoc,
      List.singleton_append, hpath']

theorem Travels.refl {s₀ s : Site ρ} {g : Handle} {frames : Stack} (inherits : s.Inherits s₀)
    (arrives : s.Arrives g frames) : Travels s₀ s [] g frames s where
  marches := .nil
  inherits := inherits
  arrives := arrives
  steps := rfl
  name := rfl
  records := ⟨[], rfl, by rw [arrives.current]; rfl⟩

section Travels

variable {s₀ s : Site ρ} {key target : Key} {h g : Handle} {before frames : Stack}

/-- A single step, which invokes the state `key` and enters the state `target`. -/
theorem Inherits.travels (inherits : s.Inherits s₀) (arrives : s.Arrives h before)
    (hh : s₀.machine.table.get? key = some h) (hfree : Key.isReserved key = false)
    (hg : s₀.machine.table.get? target = some g) (hne : target ≠ Key.error)
    (hs : s.machine.demand = .ok true →
      s.Steps (.ok true) ((s.begun.withFrames frames).entered .transit g)) :
    ∃ s', Travels s₀ s [key] g frames s' := by
  have hd := inherits.demand_eq hh hfree arrives
  obtain ⟨rfl, -⟩ := inherits.sound.lists _ _ (inherits.table ▸ hh)
  refine ⟨_, ?_, inherits.entered frames hg hne, ⟨rfl, rfl, rfl⟩, rfl, rfl, ?_⟩
  · rw [← arrives.current]
    exact .single hd (hs hd)
  · rw [← arrives.current]
    exact ⟨[(s.begun.withFrames frames).recordOf g], rfl, rfl⟩

end Travels

theorem Registers.behaviour?_eq {s : Site ρ} {b : Behaviour ρ} {h : Handle}
    (registers : s.Registers b) (hh : s.machine.table.get? b.key = some h) :
    s.store.behaviour? h = some b := by
  obtain ⟨g, hg, hb⟩ := registers
  rw [hg] at hh
  cases hh
  exact hb

/-- Only one state stands under a key. -/
theorem Registers.unique {s : Site ρ} {b b' : Behaviour ρ} (registers : s.Registers b)
    (registers' : s.Registers b') (hkey : b.key = b'.key) : b = b' := by
  obtain ⟨g, hg, hb⟩ := registers
  exact Option.some.inj (hb.symm.trans (registers'.behaviour?_eq (hkey ▸ hg)))

end Site

end StateEngine
