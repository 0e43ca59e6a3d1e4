import Mathlib.Data.List.Count
import StateEngine.Proofs.Limits
import StateEngine.Proofs.Tracing

/-!
# What observers are told

A transit is announced to every observer that is registered at that time, in the order of their
registration, as the key that was left and the key that was entered. Nothing else is announced. The
announcements and the history both follow the transitions, but an observer is told of transits only
and the history has them all; and the history has no say in what is announced.
-/

namespace StateEngine

variable {ρ : Type}

/-- The transit that an observer is told of by an entry of the journal. -/
def Entry.toldTo? (observer : String) : Entry → Option (Key × Key)
  | .notified o source target => if o = observer then some (source, target) else none
  | _ => none

/-- The transits that an observer was told of, the oldest first. -/
def heardBy (observer : String) (journal : List Entry) : List (Key × Key) :=
  journal.filterMap (·.toldTo? observer)

/-- A transit as it is announced to observers. -/
def announcement (observers : List String) (transit : Key × Key) : List Entry :=
  observers.map fun o => .notified o transit.1 transit.2

theorem heardBy_append (observer : String) (journal more : List Entry) :
    heardBy observer (journal ++ more) = heardBy observer journal ++ heardBy observer more :=
  List.filterMap_append

/-- An observer hears an announcement once for each time that it is registered. -/
theorem heardBy_announcement (observer : String) (observers : List String)
    (transit : Key × Key) : heardBy observer (announcement observers transit) =
      List.replicate (observers.count observer) transit := by
  induction observers with
  | nil => rfl
  | cons o rest ih =>
    have hcons : heardBy observer (announcement (o :: rest) transit) =
        (if o = observer then [transit] else []) ++
          heardBy observer (announcement rest transit) := by
      by_cases ho : o = observer <;>
        simp [heardBy, announcement, Entry.toldTo?, ho]
    rw [hcons, ih]
    by_cases ho : o = observer
    · rw [if_pos ho, ho, List.count_cons_self, List.replicate_succ, List.singleton_append]
    · rw [if_neg ho, List.count_cons_of_ne ho, List.nil_append]

namespace Execution

/-- The transit that is made at this moment: the key that is left and the key that is entered. -/
def transit? (e : Execution ρ) : Option (Key × Key) :=
  match e.committed? with
  | some (.transit, h) => some (e.site.machine.current.key, h.key)
  | _ => none

/-- What is announced at this moment. -/
def announced (e : Execution ρ) : List Entry :=
  e.transit?.toList.flatMap (announcement e.site.machine.observers)

/-- A moment at which a state is selected or the machine reset to it, which is announced to nobody. -/
def MovesSilently (e : Execution ρ) : Prop :=
  ∃ how target go, e.focus = .perform (.move how target) go ∧ how ≠ .transit

theorem told_eq_announced (e : Execution ρ) : e.site.told e.committed? = e.announced := by
  unfold announced transit?
  cases e.committed? with
  | none => rfl
  | some c =>
    obtain ⟨how, h⟩ := c
    cases how with
    | select | reset => rfl
    | transit => exact (List.flatMap_singleton _ _).symm

theorem movesSilently_of_aim {e : Execution ρ} {how : Move} {target : Target}
    (haim : e.aim? = some (how, target)) (hhow : how ≠ .transit) : e.MovesSilently := by
  cases hf : e.focus with
  | done | fail | panic | wrap | go | finish =>
    rw [aim?, hf] at haim
    cases haim
  | perform op go =>
    simp only [aim?, hf] at haim
    cases op with
    | move how' target' =>
      cases haim
      exact ⟨how, target, go, hf, hhow⟩
    | call =>
      cases haim
      exact absurd rfl hhow
    | giveBack value =>
      simp only [Site.aim?] at haim
      split at haim
      · cases haim
        exact absurd rfl hhow
      · cases haim
    | _ => cases haim
  | step go =>
    simp only [aim?, hf] at haim
    obtain ⟨b, -, haim⟩ := Option.bind_eq_some_iff.mp haim
    obtain ⟨key, -, haim⟩ := Option.map_eq_some_iff.mp haim
    cases haim
    exact absurd rfl hhow

/-- Every transition is a transit, but for those that are asked for in another way. -/
theorem transit?_eq_none_iff {e : Execution ρ} :
    e.transit? = none ↔ e.committed? = none ∨ e.MovesSilently := by
  unfold transit?
  cases hc : e.committed? with
  | none => simp
  | some c =>
    obtain ⟨how, h⟩ := c
    obtain ⟨target, haim, -⟩ := committed?_eq_some_iff.mp hc
    have hsilent : how ≠ .transit ↔ e.MovesSilently := by
      refine ⟨movesSilently_of_aim haim, ?_⟩
      rintro ⟨how', target', go, hf, hhow⟩
      simp only [aim?, hf, Site.aim?] at haim
      cases haim
      exact hhow
    rw [← hsilent]
    cases how <;> simp

/-- A transit is recorded as it is announced. -/
theorem recorded_of_transit {e : Execution ρ} {transit : Key × Key}
    (h : e.transit? = some transit) :
    e.recorded.map (fun r => (r.source, r.target)) = [transit] := by
  unfold transit? at h
  unfold recorded
  split at h
  · rename_i g hc
    cases h
    rw [hc]
    cases e.activated? <;> rfl
  · cases h

theorem next_journal_eq {e e' : Execution ρ} (next : e.next = .inl e') :
    e'.site.journal = e.site.journal ++ (e.written ++ e.announced) := by
  rw [next_journal next, told_eq_announced]

theorem announced_of_ended {e : Execution ρ} {outcome : Outcome ρ} (h : e.next = .inr outcome) :
    e.announced = [] := by
  rw [announced, transit?, committed?_of_ended h]
  rfl

/-- The journal holds what programs have written down and what was announced. -/
theorem Run.journal_eq {first e : Execution ρ} {past : List (Execution ρ)}
    (run : Run first past e) : e.site.journal =
      first.site.journal ++ past.reverse.flatMap fun x => x.written ++ x.announced := by
  induction run with
  | start => exact (List.append_nil _).symm
  | step _ _ next ih =>
    rw [next_journal_eq next, ih, List.reverse_cons, List.flatMap_append, List.flatMap_singleton,
      List.append_assoc]
  | again p _ next ih =>
    rw [List.reverse_cons, List.flatMap_append, List.flatMap_singleton, written_of_ended next,
      announced_of_ended next, List.append_nil, List.append_nil]
    exact ih
  | meanwhile _ _ _ _ ih => exact ih

/-- The last moment of a run has added its part to the journal and to the observers. -/
theorem Run.added {first e x : Execution ρ} {past : List (Execution ρ)}
    (run : Run first (x :: past) e) :
    e.site.journal = x.site.journal ++ (x.written ++ x.announced) ∧
      e.site.machine.observers = x.site.machine.observers ++ x.observed := by
  rw [run.journal_eq, run.before.journal_eq, run.becomes.observers, run.before.becomes.observers]
  simp only [List.reverse_cons, List.flatMap_append, List.flatMap_singleton, List.append_assoc,
    and_self]

theorem Run.heardBy_added {first e x : Execution ρ} {past : List (Execution ρ)}
    {observer : String} (run : Run first (x :: past) e) (unforged : heardBy observer x.written = []) :
    heardBy observer e.site.journal = heardBy observer x.site.journal ++
      x.transit?.toList.flatMap (List.replicate (x.site.machine.observers.count observer)) := by
  rw [run.added.1, heardBy_append, heardBy_append, unforged, List.nil_append, announced]
  cases x.transit? with
  | none => rfl
  | some transit =>
    simp only [Option.toList_some, List.flatMap_singleton, heardBy_announcement]

/-- Before it is registered an observer hears nothing. -/
theorem Run.unheard {first e : Execution ρ} {past : List (Execution ρ)} {observer : String}
    (run : Run first past e) (absent : e.site.machine.observers.count observer = 0)
    (unforged : ∀ x ∈ past, heardBy observer x.written = []) :
    heardBy observer e.site.journal = heardBy observer first.site.journal := by
  induction past generalizing e with
  | nil =>
    rw [run.journal_eq]
    simp only [List.reverse_nil, List.flatMap_nil, List.append_nil]
  | cons x past ih =>
    obtain ⟨hx, unforged⟩ := List.forall_mem_cons.mp unforged
    rw [run.added.2, List.count_append, Nat.add_eq_zero_iff] at absent
    rw [run.heardBy_added hx, absent.1, ih run.before absent.1 unforged]
    cases x.transit? <;> simp

/-- The moments since an observer was registered, or all of them if it was registered from the
start. -/
def since (observer : String) (past : List (Execution ρ)) : List (Execution ρ) :=
  past.takeWhile fun x => observer ∉ x.observed

/-- From its registration on an observer hears of every transit. -/
theorem Run.heard_since {first e : Execution ρ} {past : List (Execution ρ)} {observer : String}
    (run : Run first past e) (once : e.site.machine.observers.count observer = 1)
    (unforged : ∀ x ∈ past, heardBy observer x.written = []) :
    heardBy observer e.site.journal =
      heardBy observer first.site.journal ++ (since observer past).reverse.filterMap transit? := by
  induction past generalizing e with
  | nil =>
    rw [run.journal_eq]
    simp only [List.reverse_nil, List.flatMap_nil, List.append_nil, since, List.takeWhile_nil,
      List.filterMap_nil]
  | cons x past ih =>
    obtain ⟨hx, unforged⟩ := List.forall_mem_cons.mp unforged
    rw [run.added.2, List.count_append] at once
    rw [run.heardBy_added hx]
    by_cases hregistered : observer ∈ x.observed
    · have hcount := List.count_pos_iff.mpr hregistered
      have habsent : x.site.machine.observers.count observer = 0 := by omega
      rw [run.before.unheard habsent unforged, habsent, since, List.takeWhile_cons_of_neg (by simpa)]
      cases x.transit? <;> simp
    · have hcount := List.count_eq_zero.mpr hregistered
      have honce : x.site.machine.observers.count observer = 1 := by omega
      have hsince : since observer (x :: past) = x :: since observer past :=
        List.takeWhile_cons_of_pos (by simpa)
      rw [ih run.before honce unforged, honce, hsince, List.reverse_cons, List.filterMap_append,
        List.append_assoc]
      cases htransit : x.transit? <;> simp [htransit]

/-- The journal is what programs have written down and what was announced; an announcement goes to
all observers that were registered so far, in the order of their registration. An observer hears of
the transits that are made after its registration, all of them and in their order, and of nothing
else. Each of them is in the history too, but with another history the observers are told the
same. -/
theorem Run.observers_hear_transits {first e : Execution ρ} {past : List (Execution ρ)}
    (run : Run first past e) :
    e.site.journal = first.site.journal ++
      past.reverse.flatMap (fun x => x.written ++ x.announced) ∧
    e.site.machine.observers = first.site.machine.observers ++ past.reverse.flatMap observed ∧
    (∀ observer, e.site.machine.observers.count observer = 1 →
      (∀ x ∈ past, heardBy observer x.written = []) →
      heardBy observer e.site.journal = heardBy observer first.site.journal ++
        (since observer past).reverse.filterMap transit?) ∧
    (∀ x ∈ past, (x.transit? = none ↔ x.committed? = none ∨ x.MovesSilently) ∧
      ∀ transit, x.transit? = some transit →
        x.recorded.map (fun r => (r.source, r.target)) = [transit]) ∧
    ∀ cues history, first.Blind → (∀ c ∈ cues, c.Blind) → first.follow cues = some (past, e) →
      ∃ past' e', (first.withHistory history).follow cues = some (past', e') ∧
        e'.site.journal = e.site.journal := by
  refine ⟨run.journal_eq, run.becomes.observers, fun observer => run.heard_since,
    fun x _ => ⟨transit?_eq_none_iff, fun _ => recorded_of_transit⟩, ?_⟩
  intro cues history blind hcues hfollow
  obtain ⟨-, past', -, hagain⟩ := follow_withHistory blind hcues hfollow history
  exact ⟨past', _, hagain, rfl⟩

/-- An observer that is registered after a call hears of the return from it, and nothing of the call
nor of a reset. -/
theorem observers_hear_transits_once : ∃ (p : Program Unit) (past : List (Execution Unit))
    (e : Execution Unit), Run (.start (.fresh .stack) p) past e ∧
      past.flatMap (fun x => (x.recorded.map Record.target)) = [Key.pop, Key.done, Key.pop] ∧
      heardBy "watch" e.site.journal = [(Key.pop, Key.done)] := by
  let p : Program Unit := .perform (.call Key.pop none Key.done) fun _ =>
    .perform (.observe "watch") fun _ => .step fun _ =>
      .perform (.move .reset (.key Key.pop)) fun _ => .done ()
  obtain ⟨⟨past, e⟩, hforward, honce, hrecorded, hwritten, htransits⟩ :
      ∃ r, forward 4 (.start (.fresh .stack) p) = some r ∧
        r.2.site.machine.observers.count "watch" = 1 ∧
        r.1.flatMap (fun x => (x.recorded.map Record.target)) = [Key.pop, Key.done, Key.pop] ∧
        r.1.map (fun x => heardBy "watch" x.written) = [[], [], [], []] ∧
        (since "watch" r.1).reverse.filterMap transit? = [(Key.pop, Key.done)] :=
    ⟨_, rfl, by decide +kernel, by decide +kernel, by decide +kernel, by decide +kernel⟩
  have run : Run (.start (.fresh .stack) p) past e := run_forward hforward
  have unforged : ∀ x ∈ past, heardBy "watch" x.written = [] := by
    intro x hx
    have hmem := List.mem_map_of_mem (f := fun x : Execution Unit => heardBy "watch" x.written) hx
    rw [hwritten] at hmem
    simpa using hmem
  obtain ⟨-, -, hheard, -⟩ := run.observers_hear_transits
  exact ⟨p, past, e, run, hrecorded, (hheard "watch" honce unforged).trans htransits⟩

end Execution

end StateEngine
