import Mathlib.Data.Nat.Init
import StateEngine.Proofs.Ledger

/-!
# A driver that only steps

The moments of such a driver form a sequence without end: when a step has ended, in whatever way, the
next one begins. Between two moments the rest of the world may act on the store, as in every run.
-/

namespace StateEngine

variable {ρ : Type}

/-- Asks for one step and ends as the step ended. -/
def Program.stepOnce [Inhabited ρ] : Program ρ :=
  .step fun
    | .ok _ => .done default
    | .error e => .fail e

theorem Behaviour.Continues.eq_of_builtin {b after : Behaviour ρ} (h : b.Continues after)
    (hb : b.builtin?.isSome) : after = b := by
  cases b with
  | constant | routine => cases hb
  | pop | iterate | iterateNext => exact h

namespace Site

/-- A built-in state stands under its own key. -/
def Registers (s : Site ρ) (b : Behaviour ρ) : Prop :=
  ∃ h, s.machine.table.get? b.key = some h ∧ s.store.behaviour? h = some b

/-- No state has taken the place of those that calls and iterations rely on. -/
structure KeepsBuiltins (s : Site ρ) : Prop where
  pop : s.Registers .pop
  iterate : s.Registers .iterate
  iterateNext : s.Registers .iterateNext

theorem currentBehaviour_continues {s s' : Site ρ} (hk : s.store.Knows s.machine.current)
    (hc : s'.machine.current = s.machine.current) (hg : s.store.Grows s'.store) :
    s.currentBehaviour.Continues s'.currentBehaviour := by
  obtain ⟨b, hb, -⟩ := hk
  obtain ⟨after, hafter, hcont⟩ := hg.behaviour? hb
  rw [currentBehaviour, currentBehaviour, hc, hb, hafter]
  exact hcont

/-- A machine that is in `POP` has come there by a transition that no activation has followed. -/
def AwaitsReturn (s : Site ρ) : Prop := s.currentBehaviour = .pop → s.machine.progressed = true

end Site

namespace Execution

/-- What the rest of the world may do between two moments. -/
structure Drifts (e e' : Execution ρ) : Prop where
  focus : e'.focus = e.focus
  waiting : e'.waiting = e.waiting
  machine : e'.site.machine = e.site.machine
  journal : e'.site.journal = e.site.journal
  grows : e.site.store.Grows e'.site.store

theorem Run.drifts {first e e' : Execution ρ} {past : List (Execution ρ)} (run : Run first past e)
    (h : e.Drifts e') : Run first past e' := by
  obtain ⟨⟨machine, store, shelf, journal, clock⟩, focus, waiting⟩ := e'
  obtain ⟨rfl, rfl, rfl, rfl, hgrows⟩ := h
  exact .meanwhile shelf clock run hgrows

variable [Inhabited ρ]

/-- A moment between two steps of the driver. -/
structure Poised (e : Execution ρ) : Prop where
  focus : e.focus = .stepOnce
  waiting : e.waiting = []

/-- The moments of a driver that steps and steps again. -/
def Drives (m : Nat → Execution ρ) : Prop :=
  ∀ i, (m i).Honest ∧
    ((∃ e, (m i).next = .inl e ∧ e.Drifts (m (i + 1))) ∨
      ∃ outcome, (m i).next = .inr outcome ∧ (start (m i).site .stepOnce).Drifts (m (i + 1)))

/-- The moments of such a driver when nobody else acts. -/
def driven (e : Execution ρ) : Nat → Execution ρ
  | 0 => e
  | i + 1 =>
    match (driven e i).next with
    | .inl e' => e'
    | .inr _ => start (driven e i).site .stepOnce

theorem drives_driven {e : Execution ρ} (honest : ∀ i, (driven e i).Honest) : Drives (driven e) := by
  refine fun i => ⟨honest i, ?_⟩
  rw [driven]
  cases (driven e i).next with
  | inl e' => exact .inl ⟨e', rfl, rfl, rfl, rfl, rfl, .refl _⟩
  | inr outcome => exact .inr ⟨outcome, rfl, rfl, rfl, rfl, rfl, .refl _⟩

theorem driven_of_done {e : Execution ρ} {n : Nat} (poised : (driven e n).Poised)
    (hdone : (driven e n).site.machine.current.key = Key.done) :
    driven e (n + 2) = driven e n := by
  have hstep : driven e (n + 1) =
      { site := (driven e n).site, focus := .done default, waiting := [] } := by
    rw [driven, next, poised.focus, poised.waiting]
    simp only [Program.stepOnce, enterStep, Machine.demand, hdone, if_true]
  rw [driven, hstep]
  cases hn : driven e n with
  | mk site focus waiting =>
    rw [hn] at poised
    obtain ⟨rfl, rfl⟩ := poised
    rfl

/-- A driver that comes back to an earlier moment goes round for ever. -/
theorem driven_of_periodic {e : Execution ρ} {n period : Nat} {P : Execution ρ → Prop}
    (hpos : 0 < period) (hperiod : driven e (n + period) = driven e n)
    (h : ∀ i < n + period, P (driven e i)) (i : Nat) : P (driven e i) := by
  have hshift : ∀ k, driven e (n + period + k) = driven e (n + k) := by
    intro k
    induction k with
    | zero => exact hperiod
    | succ k ih => rw [← Nat.add_assoc, ← Nat.add_assoc, driven, ih, driven]
  induction i using Nat.strongRecOn with
  | ind i ih =>
    rcases Nat.lt_or_ge i (n + period) with hi | hi
    · exact h i hi
    · obtain ⟨k, rfl⟩ := Nat.exists_eq_add_of_le hi
      rw [hshift]
      exact ih (n + k) (by omega)

theorem Poised.activates {e : Execution ρ} {b : Behaviour ρ} (poised : e.Poised)
    (sound : e.site.Sound) (hp : e.site.machine.progressed = true)
    (hb : e.site.currentBehaviour = b) (hbuiltin : b.builtin?.isSome) : e.activated? = some b := by
  refine activated?_eq_some_iff.mpr ⟨⟨_, poised.focus⟩, ?_, hb⟩
  have hkey := sound.key_currentBehaviour
  rw [hb] at hkey
  rw [Machine.demand, ← hkey, hp]
  cases b with
  | constant | routine => cases hbuiltin
  | pop | iterate | iterateNext => rfl

namespace Drives

variable {m : Nat → Execution ρ}

theorem drifts (drives : Drives m) {i : Nat} {e : Execution ρ} (h : (m i).next = .inl e) :
    e.Drifts (m (i + 1)) := by
  obtain ⟨-, ⟨e', h', hdrifts⟩ | ⟨outcome, h', -⟩⟩ := drives i
  · rw [h] at h'
    cases h'
    exact hdrifts
  · rw [h] at h'
    cases h'

theorem starts_over (drives : Drives m) {i : Nat} {outcome : Outcome ρ}
    (h : (m i).next = .inr outcome) : (start (m i).site .stepOnce).Drifts (m (i + 1)) := by
  obtain ⟨-, ⟨e', h', -⟩ | ⟨outcome', h', hdrifts⟩⟩ := drives i
  · rw [h] at h'
    cases h'
  · exact hdrifts

theorem run (drives : Drives m) (i : Nat) : ∃ past, Run (m 0) past (m i) := by
  induction i with
  | zero => exact ⟨[], .start⟩
  | succ i ih =>
    obtain ⟨past, run⟩ := ih
    obtain ⟨honest, ⟨e, next, hdrifts⟩ | ⟨outcome, next, hdrifts⟩⟩ := drives i
    · exact ⟨_, (run.step honest next).drifts hdrifts⟩
    · exact ⟨_, (run.again .stepOnce next).drifts hdrifts⟩

theorem sound (drives : Drives m) (sound : (m 0).site.Sound) (i : Nat) : (m i).site.Sound := by
  obtain ⟨past, run⟩ := drives.run i
  exact run.sound sound

theorem contains (drives : Drives m) {key : Key}
    (hk : (m 0).site.machine.table.contains key = true) (i : Nat) :
    (m i).site.machine.table.contains key = true := by
  obtain ⟨past, run⟩ := drives.run i
  exact run.contains hk

theorem deed (drives : Drives m) (i : Nat) : ∃ s', (m i).Deed s' ∧
    (m (i + 1)).site.machine = s'.machine ∧ s'.store.Grows (m (i + 1)).site.store := by
  obtain ⟨-, ⟨e, next, hdrifts⟩ | ⟨outcome, next, hdrifts⟩⟩ := drives i
  · exact ⟨e.site, next_deed next, hdrifts.machine, hdrifts.grows⟩
  · exact ⟨(m i).site, .idle (stackEvent_of_ended next), hdrifts.machine, hdrifts.grows⟩

theorem change (drives : Drives m) (i : Nat) :
    Stack.Change (m i).stackEvent (m i).site.machine.frames (m (i + 1)).site.machine.frames := by
  obtain ⟨s', hdeed, hmachine, -⟩ := drives.deed i
  rw [hmachine]
  exact hdeed.change

/-- A step into a built-in state that succeeds is over at the moment after; the next step comes
then. -/
theorem after_builtin (drives : Drives m) {i : Nat} {b : Behaviour ρ}
    {act : Site ρ → Site.Result ρ Unit} {s' : Site ρ} (poised : (m i).Poised)
    (ha : (m i).activated? = some b) (hb : b.builtin? = some act)
    (hact : act (m i).site.begun = (.ok (), s')) :
    (m (i + 1)).activated? = none ∧ (m (i + 1)).site.machine = s'.machine ∧
      (m (i + 2)).Poised ∧ (m (i + 2)).site.machine = s'.machine ∧
      s'.store.Grows (m (i + 2)).site.store := by
  have hnext := next_of_builtin poised.focus ha hb
  rw [hact, poised.waiting] at hnext
  have hover := drives.drifts hnext
  have hfocus : (m (i + 1)).focus = .done default := hover.focus
  have hwaiting : (m (i + 1)).waiting = [] := hover.waiting
  have hended : (m (i + 1)).next = .inr (.finished default) := by rw [next, hfocus, hwaiting]
  have hagain := drives.starts_over hended
  refine ⟨?_, hover.machine, ⟨hagain.focus, hagain.waiting⟩,
    hagain.machine.trans hover.machine, hover.grows.trans hagain.grows⟩
  rw [activated?, hfocus]

/-- A step from one built-in state to another. -/
theorem into_builtin (drives : Drives m) (sound : ∀ i, (m i).site.Sound) {i : Nat}
    {b after : Behaviour ρ} {act : Site ρ → Site.Result ρ Unit} {frames : Stack} {h : Handle}
    (poised : (m i).Poised) (ha : (m i).activated? = some b) (hb : b.builtin? = some act)
    (hact : act (m i).site.begun =
      (.ok (), ((m i).site.begun.withFrames frames).entered .transit h))
    (hh : (m i).site.store.behaviour? h = some after) (hafter : after.builtin?.isSome) :
    (m (i + 1)).activated? = none ∧ (m (i + 1)).site.machine.frames = frames ∧
      (m (i + 2)).Poised ∧ (m (i + 2)).activated? = some after ∧
      (m (i + 2)).site.machine.frames = frames := by
  obtain ⟨hnone, hmachine, hpoised, hmachine', hgrows⟩ := drives.after_builtin poised ha hb hact
  refine ⟨hnone, by rw [hmachine]; rfl, hpoised, ?_, by rw [hmachine']; rfl⟩
  obtain ⟨later, hlater, hcont⟩ := hgrows.behaviour? hh
  obtain rfl := hcont.eq_of_builtin hafter
  refine hpoised.activates (sound _) (by rw [hmachine']; rfl) ?_ hafter
  rw [Site.currentBehaviour, hmachine', Site.entered_current, hlater]
  rfl

/-- As long as the stack keeps `n` frames, the same calls are waiting in them. -/
theorem floor_eq (drives : Drives m) {n i j : Nat} (hn : 1 < n) (hij : i ≤ j)
    (habove : ∀ k, i ≤ k → k ≤ j → n ≤ (m k).site.machine.frames.length) :
    Stack.floor n (m j).site.machine.frames = Stack.floor n (m i).site.machine.frames := by
  induction j, hij using Nat.le_induction with
  | base => rfl
  | succ j hij ih =>
    rw [(drives.change j).floor_eq (habove j hij (Nat.le_succ j))
      (habove (j + 1) (Nat.le_succ_of_le hij) (Nat.le_refl _)) hn]
    exact ih fun k hik hkj => habove k hik (Nat.le_succ_of_le hkj)

theorem awaitsReturn_succ (drives : Drives m) (sound : ∀ i, (m i).site.Sound) {i : Nat}
    (h : (m i).site.AwaitsReturn)
    (hpop : (m i).activated? = some .pop → (m i).popOutcome = .ok ()) :
    (m (i + 1)).site.AwaitsReturn := by
  intro hcurrent
  by_cases ha : (m i).activated? = some .pop
  · obtain ⟨⟨go, hf⟩, -⟩ := activated?_eq_some_iff.mp ha
    rw [(drives.drifts (next_of_builtin hf ha rfl)).machine]
    exact Builtin.progressed_of_pop (hpop ha)
  · obtain ⟨s', hdeed, hmachine, hgrows⟩ := drives.deed i
    rcases hdeed.progressed_or with hp | ⟨hc, hg, hp⟩
    · rw [hmachine, hp]
    · have hcont := Site.currentBehaviour_continues (sound i).knows
        (hmachine ▸ hc : (m (i + 1)).site.machine.current = _) (hg.trans hgrows)
      have hbefore := hcont.eq_pop_iff.mp hcurrent
      have hnone : (m i).activated? = none := by
        cases hb : (m i).activated? with
        | none => rfl
        | some b =>
          obtain ⟨-, -, rfl⟩ := activated?_eq_some_iff.mp hb
          rw [hbefore] at hb
          exact absurd hb ha
      rw [hmachine, hp hnone]
      exact h hbefore

theorem awaitsReturn (drives : Drives m) (sound : ∀ i, (m i).site.Sound) {i j : Nat} (hij : i ≤ j)
    (h : (m i).site.AwaitsReturn)
    (hpop : ∀ k, i ≤ k → k < j → (m k).activated? = some .pop → (m k).popOutcome = .ok ()) :
    (m j).site.AwaitsReturn := by
  induction j, hij using Nat.le_induction with
  | base => exact h
  | succ j hij ih =>
    exact drives.awaitsReturn_succ sound
      (ih fun k hik hkj => hpop k hik (Nat.lt_succ_of_lt hkj)) (hpop j hij (Nat.lt_succ_self j))

end Drives

end Execution

end StateEngine
