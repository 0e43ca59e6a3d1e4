import StateEngine.Proofs.Building
import StateEngine.Proofs.Recording

/-!
# Bounded histories

Two machines that are built alike but for the limits of their histories, and asked for the same by
programs that leave the history alone, cannot be told apart by anything but the history. Each of
their histories is the tail, as long as its limit allows, of one and the same log.
-/

namespace StateEngine

variable {ρ : Type}

/-- Programs that do not look at the history and do not write to it by hand. What they are told of a
machine, they take the same way for every history. -/
inductive Program.Blind : Program ρ → Prop where
  | done (r : ρ) : Blind (.done r)
  | fail (e : MachineError) : Blind (.fail e)
  | panic (message : String) : Blind (.panic message)
  | inspect {next : Machine → Program ρ} : (∀ m history, next { m with history } = next m) →
      (∀ m, Blind (next m)) → Blind (.perform .inspect next)
  | perform {op : Op} {next : op.Answer → Program ρ} : op ≠ .inspect → ¬ op.EditsHistory →
      (∀ answer, Blind (next answer)) → Blind (.perform op next)
  | wrap {key : Key} {body : Program ρ} {next : Handle → Program ρ} : Blind body →
      (∀ h, Blind (next h)) → Blind (.wrap key body next)
  | step {next : Except MachineError Bool → Program ρ} : (∀ r, Blind (next r)) →
      Blind (.step next)
  | go {next : Except MachineError Unit → Program ρ} : (∀ r, Blind (next r)) → Blind (.go next)
  | finish {next : Except MachineError Unit → Program ρ} : (∀ r, Blind (next r)) →
      Blind (.finish next)

theorem Program.blind_link [Inhabited ρ] (next : Key) : (Program.link next : Program ρ).Blind := by
  refine .perform nofun id fun answer => ?_
  cases answer with
  | ok => exact .done default
  | error e => exact .fail e

def Behaviour.Blind : Behaviour ρ → Prop
  | .routine _ body => body.Blind
  | _ => True

namespace Execution

/-- A moment from which none but blind programs run. -/
structure Blind (e : Execution ρ) : Prop where
  focus : e.focus.Blind
  waiting : ∀ a ∈ e.waiting, ∀ r, (a.resume r).Blind
  store : e.site.store.All Behaviour.Blind

theorem Blind.resumed {e : Execution ρ} (blind : e.Blind) {a : Activation ρ}
    {rest : List (Activation ρ)} (hw : e.waiting = a :: rest) (r : Except MachineError Bool) :
    (a.resume r).Blind ∧ ∀ a ∈ rest, ∀ r, (a.resume r).Blind := by
  have hall := blind.waiting
  rw [hw, List.forall_mem_cons] at hall
  exact ⟨hall.1 r, hall.2⟩

/-- A state that is invoked by a blind program runs blind programs only. -/
theorem Blind.invoke {site : Site ρ} {b : Behaviour ρ} {a : Activation ρ}
    {waiting : List (Activation ρ)} (hb : b.Blind) (ha : ∀ r, (a.resume r).Blind)
    (hw : ∀ a ∈ waiting, ∀ r, (a.resume r).Blind) :
    (Execution.invoke site b a waiting).focus.Blind ∧
      ∀ x ∈ (Execution.invoke site b a waiting).waiting, ∀ r, (x.resume r).Blind := by
  have hsettle : ∀ r : Site.Result ρ Unit, (settle a waiting r).focus.Blind ∧
      ∀ x ∈ (settle a waiting r).waiting, ∀ r, (x.resume r).Blind := by
    intro r
    refine ⟨?_, hw⟩
    unfold settle
    cases r.1 with
    | ok => exact ha _
    | error e => exact ha _
  cases b with
  | constant key => exact ⟨ha _, hw⟩
  | routine key body => exact ⟨hb, List.forall_mem_cons.mpr ⟨ha, hw⟩⟩
  | pop | iterate | iterateNext => exact hsettle _

theorem Blind.next {e e' : Execution ρ} (blind : e.Blind) (next : e.next = .inl e') : e'.Blind := by
  have hfocus := blind.focus
  have hstore := (next_deed next).all blind.store fun key body go hf => by
    rw [hf] at hfocus
    cases hfocus with
    | wrap hbody _ => exact hbody
  suffices h : e'.focus.Blind ∧ ∀ a ∈ e'.waiting, ∀ r, (a.resume r).Blind from ⟨h.1, h.2, hstore⟩
  cases hf : e.focus with
  | panic message => simp [Execution.next, hf] at next
  | done | fail =>
    simp only [Execution.next, hf] at next
    split at next
    · cases next
    · rename_i a rest hw
      cases next
      exact ⟨(blind.resumed hw _).1, (blind.resumed hw (.ok true)).2⟩
  | perform op go =>
    rw [hf] at hfocus
    simp only [Execution.next, hf] at next
    cases next
    cases hfocus with
    | inspect _ hgo => exact ⟨hgo _, blind.waiting⟩
    | perform _ _ hgo => exact ⟨hgo _, blind.waiting⟩
  | wrap key body go =>
    rw [hf] at hfocus
    simp only [Execution.next, hf] at next
    cases next
    cases hfocus with
    | wrap _ hgo => exact ⟨hgo _, blind.waiting⟩
  | go go =>
    rw [hf] at hfocus
    simp only [Execution.next, hf] at next
    cases next
    cases hfocus with
    | go hgo =>
      refine ⟨.step fun r => ?_, blind.waiting⟩
      rcases r with error | (_ | _)
      · exact hgo _
      · exact hgo _
      · exact .go hgo
  | finish go =>
    rw [hf] at hfocus
    simp only [Execution.next, hf] at next
    cases next
    cases hfocus with
    | finish hgo =>
      refine ⟨?_, blind.waiting⟩
      simp only
      split
      · exact hgo _
      · refine .step fun r => ?_
        cases r with
        | error error => exact hgo _
        | ok => exact .finish hgo
  | step go =>
    rw [hf] at hfocus
    have hgo : ∀ r, (go r).Blind := by
      cases hfocus with
      | step hgo => exact hgo
    cases ha : e.activated? with
    | some b =>
      rw [next_of_activated hf ha] at next
      cases next
      refine Blind.invoke ?_ hgo blind.waiting
      obtain ⟨-, -, rfl⟩ := activated?_eq_some_iff.mp ha
      unfold Site.currentBehaviour
      cases hb : e.site.store.behaviour? e.site.machine.current with
      | none => trivial
      | some b => exact blind.store _ b hb
    | none =>
      simp only [activated?, hf] at ha
      simp only [Execution.next, hf, enterStep] at next
      cases hd : e.site.machine.demand with
      | error error =>
        rw [hd] at next
        cases next
        exact ⟨hgo _, blind.waiting⟩
      | ok due =>
        cases due with
        | true => simp [hd] at ha
        | false =>
          rw [hd] at next
          cases next
          exact ⟨hgo _, blind.waiting⟩

/-- A moment of a blind program is the same whatever the history holds, and what is recorded of it is
recorded in any history. -/
theorem next_withHistory {e e' : Execution ρ} (blind : e.focus.Blind) (next : e.next = .inl e')
    (history : History) :
    (e.withHistory history).next = .inl (e'.withHistory (history.recordAll e.recorded)) := by
  have hf' : (e.withHistory history).focus = e.focus := rfl
  have hsilent : e.activated? = none → e.committed? = none → e.recorded = [] := by
    intro ha hc
    simp only [recorded, ha, hc]
    rfl
  cases hf : e.focus with
  | step go => exact step_withHistory hf next history
  | panic message => simp [Execution.next, hf] at next
  | done | fail =>
    rw [hsilent (by simp only [activated?, hf]) (by simp only [committed?, hf])]
    rw [hf] at hf'
    have hw' : (e.withHistory history).waiting = e.waiting := rfl
    simp only [Execution.next, hf] at next
    simp only [Execution.next, hf', hw']
    split at next
    · cases next
    · cases next
      rfl
  | wrap | go =>
    rw [hsilent (by simp only [activated?, hf]) (by simp only [committed?, hf])]
    rw [hf] at hf'
    simp only [Execution.next, hf] at next
    simp only [Execution.next, hf']
    cases next
    rfl
  | finish go =>
    rw [hsilent (by simp only [activated?, hf]) (by simp only [committed?, hf])]
    rw [hf] at hf'
    simp only [Execution.next, hf] at next
    simp only [Execution.next, hf']
    cases next
    rfl
  | perform op go =>
    have ha : e.activated? = none := by simp only [activated?, hf]
    have hc : e.committed? = e.site.committed? op := by simp only [committed?, hf]
    rw [hf] at hf' blind
    simp only [Execution.next, hf] at next
    simp only [Execution.next, hf', recorded, ha, hc]
    cases next
    cases blind with
    | @inspect go hsame _ =>
      have hgo := hsame e.site.machine history
      change Sum.inl (α := Execution ρ) (β := Outcome ρ)
        { site := e.site.withHistory history, focus := go { e.site.machine with history },
          waiting := e.waiting } = _
      rw [hgo]
      rfl
    | perform hread hedit _ =>
      rw [show (e.withHistory history).site = e.site.withHistory history from rfl,
        e.site.answer_withHistory history hread hedit]
      rfl

theorem ended_withHistory {e : Execution ρ} {outcome : Outcome ρ} (next : e.next = .inr outcome)
    (history : History) : (e.withHistory history).next = .inr outcome := by
  have hf' : (e.withHistory history).focus = e.focus := rfl
  have hw' : (e.withHistory history).waiting = e.waiting := rfl
  rcases ended_cases next with ⟨r, rfl, hf, hw⟩ | ⟨error, rfl, hf, hw⟩ | ⟨message, rfl, hf⟩
  · rw [Execution.next, hf', hf, hw', hw]
  · rw [Execution.next, hf', hf, hw', hw]
  · rw [Execution.next, hf', hf]

/-- What happens to a machine next. -/
inductive Cue (ρ : Type) where
  | proceed
  /-- The driver goes on with another program. -/
  | again (p : Program ρ)
  /-- Others act on the store, handles are put aside, and time passes. -/
  | meanwhile (store : Store ρ) (shelf : Table Handle) (clock : Timestamp)

def Cue.Blind : Cue ρ → Prop
  | .proceed => True
  | .again p => p.Blind
  | .meanwhile store _ _ => store.All Behaviour.Blind

/-- Where a run comes to that is given cues, the latest first, and the moments that it has passed.
There is no such run if a program is to proceed that has ended, or another to begin before that. -/
def follow (first : Execution ρ) : List (Cue ρ) → Option (List (Execution ρ) × Execution ρ)
  | [] => some ([], first)
  | cue :: earlier =>
    match follow first earlier with
    | none => none
    | some (past, e) =>
      match cue, e.next with
      | .proceed, .inl e' => some (e :: past, e')
      | .again p, .inr _ => some (e :: past, .start e.site p)
      | .meanwhile store shelf clock, _ =>
        some (past, { e with site := { e.site with store, shelf, clock } })
      | _, _ => none

/-- The records of all transitions that a run has made at the moments it has passed. -/
def transitions (past : List (Execution ρ)) : List Record := past.reverse.flatMap recorded

theorem transitions_cons (e : Execution ρ) (past : List (Execution ρ)) :
    transitions (e :: past) = transitions past ++ e.recorded := by
  rw [transitions, List.reverse_cons, List.flatMap_append, List.flatMap_singleton, transitions]

theorem recorded_of_ended {e : Execution ρ} {outcome : Outcome ρ} (h : e.next = .inr outcome) :
    e.recorded = [] := by
  unfold recorded
  rw [committed?_of_ended h]
  cases e.activated? <;> rfl

/-- Two moments of two machines that only the history can tell apart. -/
structure Alike (e₁ e₂ : Execution ρ) : Prop where
  current : e₂.site.machine.current = e₁.site.machine.current
  progressed : e₂.site.machine.progressed = e₁.site.machine.progressed
  steps : e₂.site.machine.steps = e₁.site.machine.steps
  frames : e₂.site.machine.frames = e₁.site.machine.frames
  table : e₂.site.machine.table = e₁.site.machine.table
  store : e₂.site.store = e₁.site.store
  journal : e₂.site.journal = e₁.site.journal
  focus : e₂.focus = e₁.focus
  waiting : e₂.waiting = e₁.waiting
  answer : ∀ op go, e₁.focus = .perform op go → op ≠ .inspect →
    (e₂.site.answer op).1 = (e₁.site.answer op).1
  outcome : ∀ outcome, e₁.next = .inr outcome ↔ e₂.next = .inr outcome
  recorded : e₂.recorded = e₁.recorded

theorem Blind.alike {e : Execution ρ} (blind : e.Blind) (history : History) :
    e.Alike (e.withHistory history) where
  current := rfl
  progressed := rfl
  steps := rfl
  frames := rfl
  table := rfl
  store := rfl
  journal := rfl
  focus := rfl
  waiting := rfl
  answer op go hf hread := by
    have hfocus := blind.focus
    rw [hf] at hfocus
    cases hfocus with
    | inspect => exact absurd rfl hread
    | perform _ hedit _ =>
      rw [show (e.withHistory history).site = e.site.withHistory history from rfl,
        e.site.answer_withHistory history hread hedit]
  outcome outcome := by
    refine ⟨fun h => ended_withHistory h history, fun h => ?_⟩
    have hback := ended_withHistory h e.site.machine.history
    exact hback
  recorded := e.recorded_withHistory history

theorem Alike.transitions_eq {past₁ past₂ : List (Execution ρ)}
    (h : List.Forall₂ Alike past₁ past₂) : transitions past₂ = transitions past₁ := by
  induction h with
  | nil => rfl
  | cons hx _ ih => rw [transitions_cons, transitions_cons, ih, hx.recorded]

/-- The same cues lead a machine with another history through the same moments, and each history
gains the same records. -/
theorem follow_withHistory {first e : Execution ρ} {past : List (Execution ρ)}
    {cues : List (Cue ρ)} (blind : first.Blind) (hcues : ∀ c ∈ cues, c.Blind)
    (h : first.follow cues = some (past, e)) (history : History) :
    e.Blind ∧ ∃ past', List.Forall₂ Alike past past' ∧
      (first.withHistory history).follow cues =
        some (past', e.withHistory (history.recordAll (transitions past))) := by
  induction cues generalizing past e with
  | nil =>
    cases h
    exact ⟨blind, [], .nil, rfl⟩
  | cons cue earlier ih =>
    obtain ⟨hcue, hcues⟩ := List.forall_mem_cons.mp hcues
    rw [follow] at h
    cases hx : first.follow earlier with
    | none =>
      rw [hx] at h
      cases h
    | some reached =>
      obtain ⟨past, x⟩ := reached
      obtain ⟨hblind, past', hall, hthere⟩ := ih hcues hx
      rw [hx] at h
      simp only at h
      rw [follow, hthere]
      simp only
      split at h
      · rename_i x' hnext
        cases h
        refine ⟨hblind.next hnext, x.withHistory (history.recordAll (transitions past)) :: past',
          .cons (hblind.alike _) hall, ?_⟩
        rw [next_withHistory hblind.focus hnext, transitions_cons, History.recordAll_append]
      · rename_i p outcome hnext
        cases h
        refine ⟨⟨hcue, nofun, hblind.store⟩,
          x.withHistory (history.recordAll (transitions past)) :: past',
          .cons (hblind.alike _) hall, ?_⟩
        rw [ended_withHistory hnext, transitions_cons, recorded_of_ended hnext, List.append_nil]
        rfl
      · cases h
        exact ⟨⟨hblind.focus, hblind.waiting, hcue⟩, past', hall, rfl⟩
      · cases h

/-- What a run of blind programs adds to the history is what is recorded of its moments. -/
theorem follow_history {first e : Execution ρ} {past : List (Execution ρ)} {cues : List (Cue ρ)}
    (blind : first.Blind) (hcues : ∀ c ∈ cues, c.Blind) (h : first.follow cues = some (past, e)) :
    e.site.machine.history = first.site.machine.history.recordAll (transitions past) := by
  obtain ⟨-, past', -, hagain⟩ := follow_withHistory blind hcues h first.site.machine.history
  have hsame : first.withHistory first.site.machine.history = first := rfl
  rw [hsame, h, Option.some.injEq, Prod.mk.injEq] at hagain
  rw [hagain.2]
  rfl

end Execution

namespace Builder

/-- The record of entering the initial state. -/
def opening (b : Builder) (time : Timestamp) : List Record :=
  match b.initial with
  | none => []
  | some key => [{ source := Key.uninitialized, target := key, step := 0, time }]

theorem attachAll_withHistory (states : List Handle) (s : Site ρ) (history : History) :
    attachAll states (s.withHistory history) =
      ((attachAll states s).1, (attachAll states s).2.withHistory history) := by
  induction states generalizing s with
  | nil => rfl
  | cons h rest ih =>
    rw [attachAll, attachAll, Site.attach_withHistory]
    cases s.attach h with
    | error e => rfl
    | ok r => exact ih r.2

theorem enterInitial_withHistory_of_ok {b : Builder} {s s' : Site ρ} (sound : s.Sound)
    (hc : s.machine.current.key = Key.uninitialized) (hs : s.machine.steps = 0)
    (h : b.enterInitial s = (.ok (), s')) (history : History) :
    b.enterInitial (s.withHistory history) =
      (.ok (), s'.withHistory (history.recordAll (b.opening s.clock))) := by
  unfold enterInitial at h ⊢
  unfold opening
  cases hk : b.initial with
  | none =>
    rw [hk] at h
    cases h
    rfl
  | some key =>
    rw [hk] at h
    simp only at h ⊢
    rw [Site.move_withHistory]
    cases hm : s.move .select (.key key) with
    | error e => simp [hm, Site.settle] at h
    | ok s₁ =>
      simp only [hm, Site.settle, Prod.mk.injEq, true_and] at h
      subst h
      obtain ⟨g, hg, -, rfl⟩ := Site.move_eq_ok_iff.mp hm
      obtain ⟨rfl, -, -⟩ := sound.lists _ _ (Machine.decode_eq_ok_iff.mp hg)
      rw [← hc, ← hs]
      rfl

theorem enterInitial_withHistory_of_error {b : Builder} {s s' : Site ρ} {e : MachineError}
    (h : b.enterInitial s = (.error e, s')) (history : History) :
    b.enterInitial (s.withHistory history) = (.error e, s'.withHistory history) := by
  unfold enterInitial at h ⊢
  cases hk : b.initial with
  | none =>
    rw [hk] at h
    cases h
  | some key =>
    rw [hk] at h
    simp only at h ⊢
    rw [Site.move_withHistory]
    cases hm : s.move .select (.key key) with
    | error e' =>
      rw [hm] at h
      cases h
      rfl
    | ok s₁ =>
      rw [hm] at h
      cases h

theorem outset_withLimit (b : Builder) (store : Store ρ) (id : MachineId) (time : Timestamp)
    (limit : Nat) : { b with historyLimit := limit }.outset store id time =
      (b.outset store id time).withHistory (History.withLimit limit) := rfl

/-- The limit decides what the history of a new machine holds, and nothing else. -/
theorem build_withLimit {b : Builder} {store : Store ρ} (known : ∀ h ∈ b.states, store.Knows h)
    (id : MachineId) (time : Timestamp) (limit : Nat) :
    { b with historyLimit := limit }.build store id time =
      ((b.build store id time).1.map fun m =>
        { m with history := History.keeping limit (b.opening time) }, (b.build store id time).2) := by
  rw [build_eq, build_eq, outset_withLimit]
  simp only [attachAll_withHistory]
  cases firstRepeated? [] (b.states.map Handle.key) with
  | some key => rfl
  | none =>
    simp only
    by_cases hname : b.name.any Text.allBlank = true
    · simp only [hname, if_true]
      rfl
    simp only [hname, Bool.false_eq_true, if_false]
    obtain ⟨⟨table, hm⟩, hclock, -⟩ := attachAll_keeps b.states (b.outset store id time)
    cases ha : attachAll b.states (b.outset store id time) with
    | mk r s =>
      rw [ha] at hm hclock
      cases r with
      | error e => rfl
      | ok =>
        have sound : s.Sound := sound_of_attachAll known ha
        have hc : s.machine.current.key = Key.uninitialized := by rw [hm]; rfl
        have hs : s.machine.steps = 0 := by rw [hm]; rfl
        simp only
        cases hi : b.enterInitial s with
        | mk r s' =>
          cases r with
          | error e =>
            have hi' : { b with historyLimit := limit }.enterInitial _ = _ :=
              enterInitial_withHistory_of_error hi (History.withLimit limit)
            rw [hi']
            rfl
          | ok =>
            have hi' : { b with historyLimit := limit }.enterInitial _ = _ :=
              enterInitial_withHistory_of_ok sound hc hs hi (History.withLimit limit)
            rw [hi', History.withLimit_eq_keeping, History.recordAll_keeping, hclock]
            rfl

/-- Two machines that are built alike but for the limits of their histories go through the same
moments for as long as they are asked for the same, and neither fails to be built alone. At every
moment each history keeps the latest of the same transitions, as many as its limit allows, and has
counted the others. -/
theorem limit_tells_on_history_only {b : Builder} {store : Store ρ}
    (known : ∀ h ∈ b.states, store.Knows h) (blind : store.All Behaviour.Blind) (id : MachineId)
    (time : Timestamp) (limit₁ limit₂ : Nat) :
    (∀ error after, { b with historyLimit := limit₁ }.build store id time = (.error error, after) →
      { b with historyLimit := limit₂ }.build store id time = (.error error, after)) ∧
    ∀ m₁ after, { b with historyLimit := limit₁ }.build store id time = (.ok m₁, after) →
      ∃ m₂, { b with historyLimit := limit₂ }.build store id time = (.ok m₂, after) ∧
        ∀ shelf journal clock p cues, p.Blind → (∀ c ∈ cues, Execution.Cue.Blind c) → ∀ past₁ e₁,
          (Execution.start { machine := m₁, store := after, shelf, journal, clock } p).follow cues =
            some (past₁, e₁) →
          ∃ past₂ e₂,
            (Execution.start { machine := m₂, store := after, shelf, journal, clock } p).follow cues
              = some (past₂, e₂) ∧
            List.Forall₂ Execution.Alike past₁ past₂ ∧ e₁.Alike e₂ ∧
            Execution.transitions past₂ = Execution.transitions past₁ ∧
            e₁.site.machine.history =
              .keeping limit₁ (b.opening time ++ Execution.transitions past₁) ∧
            e₂.site.machine.history =
              .keeping limit₂ (b.opening time ++ Execution.transitions past₁) := by
  have hbuiltin : ∀ c ∈ (Store.builtins b.kind : List (Behaviour ρ)), c.Blind := fun c hc => by
    cases c with
    | routine key body => cases hk : b.kind <;> simp [hk, Store.builtins] at hc
    | _ => trivial
  have hall := b.build_all blind trivial hbuiltin id time
  rw [build_withLimit known id time limit₁, build_withLimit known id time limit₂]
  cases hb : b.build store id time with
  | mk r stocked =>
    rw [hb] at hall
    cases r with
    | error error => exact ⟨fun _ _ h => h, nofun⟩
    | ok m =>
      refine ⟨nofun, fun m₁ after h => ?_⟩
      cases h
      refine ⟨_, rfl, fun shelf journal clock p cues hp hcues past₁ e₁ hfollow => ?_⟩
      have hfirst : (Execution.start
          { machine := { m with history := .keeping limit₁ (b.opening time) },
            store := stocked, shelf, journal, clock } p).Blind := ⟨hp, nofun, hall⟩
      have hhistory := Execution.follow_history hfirst hcues hfollow
      obtain ⟨hblind, past₂, halike, hfollow₂⟩ := Execution.follow_withHistory hfirst hcues hfollow
        (History.keeping limit₂ (b.opening time))
      rw [History.recordAll_keeping] at hfollow₂
      exact ⟨past₂, _, hfollow₂, halike, hblind.alike _, Execution.Alike.transitions_eq halike,
        hhistory.trans (History.recordAll_keeping _ _ _), rfl⟩

/-- A chain of two states is run to its end with room for one record and with room for none. -/
theorem limit_tells_on_history_only_of_chain :
    ∃ (b : Builder) (store after : Store Unit) (m₁ m₂ : Machine) (cues : List (Execution.Cue Unit))
      (past₁ past₂ : List (Execution Unit)) (e₁ e₂ : Execution Unit),
      { b with historyLimit := 1 }.build store ⟨0⟩ .epoch = (.ok m₁, after) ∧
      { b with historyLimit := 0 }.build store ⟨0⟩ .epoch = (.ok m₂, after) ∧
      (Execution.start { machine := m₁, store := after, shelf := .empty, journal := [],
                         clock := .epoch } (.go fun _ => .done ())).follow cues =
        some (past₁, e₁) ∧
      (Execution.start { machine := m₂, store := after, shelf := .empty, journal := [],
                         clock := .epoch } (.go fun _ => .done ())).follow cues =
        some (past₂, e₂) ∧
      e₁.site.machine.current.key = Key.done ∧ e₂.site.machine.current = e₁.site.machine.current ∧
      e₁.site.machine.history.path = [Key.done] ∧ e₁.site.machine.history.dropped = 2 ∧
      e₂.site.machine.history.path = [] ∧ e₂.site.machine.history.dropped = 3 := by
  let made : Builder × Store Unit := (Builder.new .flat).chain .empty ["A", "B"]
  let b : Builder := { made.1 with initial := some "A" }
  have known : ∀ h ∈ b.states, made.2.Knows h :=
    List.forall_mem_cons.mpr ⟨⟨_, rfl, rfl⟩, List.forall_mem_singleton.mpr ⟨_, rfl, rfl⟩⟩
  have blind : made.2.All Behaviour.Blind :=
    (Store.all_empty.alloc (Program.blind_link "B")).alloc (Program.blind_link Key.done)
  have hcues : ∀ c ∈ List.replicate 7 (Execution.Cue.proceed : Execution.Cue Unit), c.Blind := by
    intro c hc
    rw [List.eq_of_mem_replicate hc]
    trivial
  obtain ⟨-, hsame⟩ := limit_tells_on_history_only known blind ⟨0⟩ .epoch 1 0
  let first : Except BuildError Machine × Store Unit :=
    { b with historyLimit := 1 }.build made.2 ⟨0⟩ .epoch
  have hreach : (first.1.toOption.bind fun m =>
      ((Execution.start { machine := m, store := first.2, shelf := .empty, journal := [],
                          clock := .epoch } (.go fun _ => .done ())).follow
        (List.replicate 7 .proceed)).map fun r =>
          (r.2.site.machine.current.key,
            (b.opening .epoch ++ Execution.transitions r.1).map Record.target)) =
      some (Key.done, ["A", "B", Key.done]) := by decide +kernel
  obtain ⟨m₁, hm₁, hreach⟩ := Option.bind_eq_some_iff.mp hreach
  obtain ⟨⟨past₁, e₁⟩, hfollow, hlog⟩ := Option.map_eq_some_iff.mp hreach
  obtain ⟨hdone, hlog⟩ := Prod.mk.inj hlog
  have hbuild : first = (.ok m₁, first.2) := by
    refine Prod.ext ?_ rfl
    cases hr : first.1 with
    | error e => simp [hr, Except.toOption] at hm₁
    | ok m => simpa [hr, Except.toOption] using hm₁
  obtain ⟨m₂, hbuild₂, hrun⟩ := hsame m₁ first.2 hbuild
  obtain ⟨past₂, e₂, hfollow₂, -, halike, -, hkept₁, hkept₂⟩ :=
    hrun .empty [] .epoch (.go fun _ => .done ()) _ (.go fun _ => .done ()) hcues past₁ e₁ hfollow
  have hlength : (b.opening .epoch ++ Execution.transitions past₁).length = 3 := by
    rw [← List.length_map Record.target, hlog]
    rfl
  refine ⟨b, made.2, first.2, m₁, m₂, _, past₁, past₂, e₁, e₂, hbuild, hbuild₂, hfollow, hfollow₂,
    hdone, halike.current, ?_, ?_, ?_, ?_⟩
  · rw [hkept₁, History.path, History.keeping, List.map_drop, hlog, hlength]
    rfl
  · rw [hkept₁, History.keeping, hlength]
    rfl
  · rw [hkept₂, History.path, History.keeping, List.map_drop, hlog, hlength]
    rfl
  · rw [hkept₂, History.keeping, hlength]
    rfl

end Builder

end StateEngine
