import Mathlib.Logic.Relation
import StateEngine.Proofs.Deed

/-!
# How requests for steps are answered

A request for steps suspends a program until the machine has run. What happens in between does not
depend on the program that waits nor on the activations below it, so a request has an answer of its
own, if it has one at all. The two drivers are described by the answers of the single steps they ask
for.
-/

namespace StateEngine

variable {ρ : Type}

namespace Execution

/-- One moment follows the other. -/
def Moves (e e' : Execution ρ) : Prop := e.next = .inl e'

/-- Some moments later. -/
def Reaches : Execution ρ → Execution ρ → Prop := Relation.ReflTransGen Moves

/-- The execution on top of further activations that wait below it. -/
def atop (e : Execution ρ) (below : List (Activation ρ)) : Execution ρ :=
  { e with waiting := e.waiting ++ below }

theorem invoke_atop (site : Site ρ) (b : Behaviour ρ) (a : Activation ρ)
    (waiting below : List (Activation ρ)) :
    (invoke site b a waiting).atop below = invoke site b a (waiting ++ below) := by
  cases b <;> rfl

theorem enterStep_atop (site : Site ρ) (resume : Except MachineError Bool → Program ρ)
    (waiting below : List (Activation ρ)) :
    (enterStep site resume waiting).atop below = enterStep site resume (waiting ++ below) := by
  unfold enterStep
  split
  · rfl
  · rfl
  · exact invoke_atop _ _ _ _ _

/-- What waits below has no part in what happens above it. -/
theorem next_atop {e e' : Execution ρ} (h : e.next = .inl e') (below : List (Activation ρ)) :
    (e.atop below).next = .inl (e'.atop below) := by
  obtain ⟨site, focus, waiting⟩ := e
  cases focus with
  | done r | fail error =>
    cases waiting with
    | nil => cases h
    | cons a rest =>
      cases h
      rfl
  | panic message => cases h
  | perform | wrap | go | finish =>
    cases h
    rfl
  | step go =>
    cases h
    exact congrArg Sum.inl (enterStep_atop _ _ _ _).symm

theorem run_of_reaches {e e' : Execution ρ} (h : e.Reaches e') {fuel : Nat}
    {r : Outcome ρ × Site ρ} (hr : run fuel e' = some r) : ∃ more, run more e = some r := by
  induction h using Relation.ReflTransGen.head_induction_on with
  | refl => exact ⟨fuel, hr⟩
  | head hmove _ ih =>
    obtain ⟨more, hmore⟩ := ih
    refine ⟨more + 1, ?_⟩
    have hnext : _ = _ := hmove
    rw [run, hnext]
    exact hmore

/-- A run that ends passes through every later moment, and has no more to go from there. -/
theorem Reaches.run_eq {e e' : Execution ρ} (h : e.Reaches e') {fuel : Nat}
    {r : Outcome ρ × Site ρ} (hr : run fuel e = some r) : run fuel e' = some r := by
  induction h using Relation.ReflTransGen.head_induction_on generalizing fuel with
  | refl => exact hr
  | @head e c hmove _ ih =>
    cases fuel with
    | zero => cases hr
    | succ fuel =>
      have hnext : e.next = .inl c := hmove
      rw [run, hnext] at hr
      exact run_mono (ih hr) (Nat.le_succ fuel)

/-- If a run ends, so does the part of it that lies on top. -/
theorem run_of_atop {fuel : Nat} {e : Execution ρ} {below : List (Activation ρ)}
    {r : Outcome ρ × Site ρ} (h : run fuel (e.atop below) = some r) :
    ∃ r', run fuel e = some r' := by
  induction fuel generalizing e with
  | zero => cases h
  | succ fuel ih =>
    cases hn : e.next with
    | inr outcome => exact ⟨(outcome, e.site), by rw [run, hn]⟩
    | inl e' =>
      rw [run, next_atop hn below] at h
      obtain ⟨r', hr'⟩ := ih h
      exact ⟨r', by rw [run, hn]; exact hr'⟩

theorem reaches_of_run {fuel : Nat} {e : Execution ρ} {outcome : Outcome ρ} {s' : Site ρ}
    (h : run fuel e = some (outcome, s')) :
    ∃ last, e.Reaches last ∧ last.next = .inr outcome ∧ last.site = s' := by
  induction fuel generalizing e with
  | zero => cases h
  | succ fuel ih =>
    cases hn : e.next with
    | inr ended =>
      rw [run, hn] at h
      cases h
      exact ⟨e, .refl, hn, rfl⟩
    | inl e' =>
      rw [run, hn] at h
      obtain ⟨last, hreach, hlast⟩ := ih h
      exact ⟨last, .head hn hreach, hlast⟩

theorem Reaches.atop {e e' : Execution ρ} (h : e.Reaches e') (below : List (Activation ρ)) :
    (e.atop below).Reaches (e'.atop below) := by
  induction h with
  | refl => exact .refl
  | tail _ hmove ih => exact ih.tail (next_atop hmove below)

theorem eq_of_finished {e : Execution ρ} {r : ρ} (h : e.next = .inr (.finished r)) :
    e = { site := e.site, focus := .done r, waiting := [] } := by
  obtain ⟨site, focus, waiting⟩ := e
  obtain ⟨_, heq, hf, hw⟩ | ⟨_, heq, -⟩ | ⟨_, heq, -⟩ := ended_cases h
  · cases heq
    cases hf
    cases hw
    rfl
  · cases heq
  · cases heq

theorem eq_of_failed {e : Execution ρ} {error : MachineError} (h : e.next = .inr (.failed error)) :
    e = { site := e.site, focus := .fail error, waiting := [] } := by
  obtain ⟨site, focus, waiting⟩ := e
  obtain ⟨_, heq, -⟩ | ⟨_, heq, hf, hw⟩ | ⟨_, heq, -⟩ := ended_cases h
  · cases heq
  · cases heq
    cases hf
    cases hw
    rfl
  · cases heq

theorem next_atop_of_panicked {e : Execution ρ} {message : String}
    (h : e.next = .inr (.panicked message)) (below : List (Activation ρ)) :
    (e.atop below).next = .inr (.panicked message) := by
  obtain ⟨_, heq, -⟩ | ⟨_, heq, -⟩ | ⟨_, heq, hf⟩ := ended_cases h
  · cases heq
  · cases heq
  · cases heq
    simp only [next, atop, hf]

end Execution

/-- What a program can ask of the machine it runs on. -/
inductive Request where
  | step
  /-- Steps until one reports no transition. -/
  | go
  /-- Steps until the machine is done. -/
  | finish
  deriving DecidableEq

namespace Request

def Answer : Request → Type
  | .step => Except MachineError Bool
  | .go => Except MachineError Unit
  | .finish => Except MachineError Unit

def ask : (request : Request) → (request.Answer → Program ρ) → Program ρ
  | .step, next => .step next
  | .go, next => .go next
  | .finish, next => .finish next

end Request

/-- How a program that waits for completion goes on after a step. -/
def Program.finishOn (next : Except MachineError Unit → Program ρ) :
    Except MachineError Bool → Program ρ
  | .error error => next (.error error)
  | .ok _ => .finish next

namespace Site

open Execution

/-- A request that is made on the site `s` returns with `answer` on the site `s'`, whatever the
program does with the answer and whichever activations wait. -/
def Answers (s : Site ρ) (request : Request) (answer : request.Answer) (s' : Site ρ) : Prop :=
  ∀ (next : request.Answer → Program ρ) (waiting : List (Activation ρ)),
    Reaches { site := s, focus := request.ask next, waiting }
      { site := s', focus := next answer, waiting }

section Answers

variable {s s' : Site ρ} {request : Request} {answer : request.Answer}

theorem Answers.run_eq (h : s.Answers request answer s') {next : request.Answer → Program ρ}
    {error : MachineError} (hnext : next answer = .fail error) :
    ∃ fuel, run fuel { site := s, focus := request.ask next, waiting := [] } =
      some (.failed error, s') := by
  have hend : run 1 { site := s', focus := next answer, waiting := [] } =
      some (.failed error, s') := by
    rw [hnext]
    rfl
  exact run_of_reaches (h next []) hend

/-- A request has one answer at most. -/
theorem Answers.unique (h : s.Answers request answer s') {answer' : request.Answer}
    {s'' : Site ρ} (h' : s.Answers request answer' s'') : answer' = answer ∧ s'' = s' := by
  classical
  -- A program that fails on the one answer and panics on every other can tell them apart.
  let next : request.Answer → Program ρ :=
    fun a => if a = answer then .fail .emptyStack else .panic ""
  obtain ⟨fuel, hrun⟩ := h.run_eq (show next answer = .fail .emptyStack from if_pos rfl)
  have hthere := (h' next []).run_eq hrun
  by_cases ha : answer' = answer
  · refine ⟨ha, ?_⟩
    rw [show next answer' = .fail .emptyStack from if_pos ha] at hthere
    cases fuel with
    | zero => cases hthere
    | succ fuel =>
      cases hthere
      rfl
  · rw [show next answer' = .panic "" from if_neg ha] at hthere
    cases fuel with
    | zero => cases hthere
    | succ fuel => cases hthere

/-- Answers that are all given, one of which is found whenever a run with the request ends without a
panic, are the only ones. -/
theorem answers_iff_of_complete {P : request.Answer → Site ρ → Prop}
    (given : ∀ {answer s'}, P answer s' → s.Answers request answer s')
    (complete : ∀ {fuel next waiting outcome last},
      run fuel { site := s, focus := request.ask next, waiting } = some (outcome, last) →
      (∃ answer s', P answer s') ∨ ∃ message, outcome = .panicked message) :
    s.Answers request answer s' ↔ P answer s' := by
  constructor
  · intro h
    let next : request.Answer → Program ρ := fun _ => .fail .emptyStack
    obtain ⟨fuel, hrun⟩ := h.run_eq (show next answer = .fail .emptyStack from rfl)
    rcases complete hrun with ⟨answer', s'', hp⟩ | ⟨message, hm⟩
    · obtain ⟨rfl, rfl⟩ := h.unique (given hp)
      exact hp
    · cases hm
  · exact given

end Answers

/-- How the state that is current ends once it is invoked, with the site it leaves. -/
inductive Invokes (s : Site ρ) : Except MachineError Unit → Site ρ → Prop where
  | constant {key : Key} : s.currentBehaviour = .constant key →
      Invokes s (.error (.constantInvoked key)) s.begun
  | builtin {b : Behaviour ρ} {act : Site ρ → Result ρ Unit} : s.currentBehaviour = b →
      b.builtin? = some act → Invokes s (act s.begun).1 (act s.begun).2
  | returned {key : Key} {body : Program ρ} {r : ρ} {s' : Site ρ} (fuel : Nat) :
      s.currentBehaviour = .routine key body →
      run fuel (.start s.begun body) = some (.finished r, s') → Invokes s (.ok ()) s'
  | failed {key : Key} {body : Program ρ} {error : MachineError} {s' : Site ρ} (fuel : Nat) :
      s.currentBehaviour = .routine key body →
      run fuel (.start s.begun body) = some (.failed error, s') → Invokes s (.error error) s'

/-- How a step of the machine ends. An error that leaves the invoked state is wrapped in the name of
the machine and the key of that state. -/
inductive Steps (s : Site ρ) : Except MachineError Bool → Site ρ → Prop where
  | refused {error : MachineError} : s.machine.demand = .error error → Steps s (.error error) s
  | idle : s.machine.demand = .ok false → Steps s (.ok false) s
  | returned {s' : Site ρ} : s.machine.demand = .ok true → s.Invokes (.ok ()) s' →
      Steps s (.ok s'.machine.progressed) s'
  | failed {error : MachineError} {s' : Site ρ} : s.machine.demand = .ok true →
      s.Invokes (.error error) s' →
      Steps s (.error (.invoke s.machine.name s.machine.current.key error)) s'

/-- How steps that are taken until one reports no transition end. -/
inductive Goes : Site ρ → Except MachineError Unit → Site ρ → Prop where
  | failed {s s' : Site ρ} {error : MachineError} : s.Steps (.error error) s' →
      Goes s (.error error) s'
  | rested {s s' : Site ρ} : s.Steps (.ok false) s' → Goes s (.ok ()) s'
  | on {s s₁ s' : Site ρ} {r : Except MachineError Unit} : s.Steps (.ok true) s₁ →
      Goes s₁ r s' → Goes s r s'

/-- How steps that are taken until the machine is done end. -/
inductive Finishes : Site ρ → Except MachineError Unit → Site ρ → Prop where
  | done {s : Site ρ} : s.machine.isDone = true → Finishes s (.ok ()) s
  | failed {s s' : Site ρ} {error : MachineError} : s.machine.isDone = false →
      s.Steps (.error error) s' → Finishes s (.error error) s'
  | on {s s₁ s' : Site ρ} {r : Except MachineError Unit} {moved : Bool} :
      s.machine.isDone = false → s.Steps (.ok moved) s₁ → Finishes s₁ r s' → Finishes s r s'

section Step

variable {s s' : Site ρ}

theorem activated?_of_demand (hd : s.machine.demand = .ok true) {b : Behaviour ρ}
    (hb : s.currentBehaviour = b) (next : Except MachineError Bool → Program ρ)
    (waiting : List (Activation ρ)) :
    activated? { site := s, focus := .step next, waiting } = some b :=
  activated?_eq_some_iff.mpr ⟨⟨next, rfl⟩, hd, hb⟩

/-- The body of a routine runs on top of what waits, and its own activation waits first. -/
theorem moves_into_routine (hd : s.machine.demand = .ok true) {key : Key} {body : Program ρ}
    (hb : s.currentBehaviour = .routine key body) (next : Except MachineError Bool → Program ρ)
    (waiting : List (Activation ρ)) :
    Moves { site := s, focus := .step next, waiting }
      ((Execution.start s.begun body).atop
        ({ machine := s.machine.name, state := s.machine.current.key, resume := next } ::
          waiting)) :=
  next_of_activated rfl (activated?_of_demand hd hb next waiting)

/-- A built-in state ends as what it does ends. -/
theorem invokes_builtin_iff {b : Behaviour ρ} {act : Site ρ → Result ρ Unit}
    (hb : s.currentBehaviour = b) (hact : b.builtin? = some act) {r : Except MachineError Unit} :
    s.Invokes r s' ↔ act s.begun = (r, s') := by
  constructor
  · intro h
    cases h with
    | constant hb' | returned fuel hb' | failed fuel hb' =>
      rw [← hb, hb'] at hact
      cases hact
    | builtin hb' hact' =>
      rw [← hb', hb, hact] at hact'
      cases hact'
      rfl
  · intro h
    have hi := Invokes.builtin hb hact
    rw [h] at hi
    exact hi

theorem Invokes.reaches {r : Except MachineError Unit} (h : s.Invokes r s')
    (hd : s.machine.demand = .ok true) (next : Except MachineError Bool → Program ρ)
    (waiting : List (Activation ρ)) :
    Reaches { site := s, focus := .step next, waiting }
      (Execution.settle
        { machine := s.machine.name, state := s.machine.current.key, resume := next } waiting
        (r, s')) := by
  cases h with
  | constant hb => exact .single (next_of_activated rfl (activated?_of_demand hd hb next waiting))
  | builtin hb hact =>
    exact .single (next_of_builtin rfl (activated?_of_demand hd hb next waiting) hact)
  | returned fuel hb hrun =>
    obtain ⟨last, hreach, hlast, rfl⟩ := reaches_of_run hrun
    rw [eq_of_finished hlast] at hreach
    exact (Relation.ReflTransGen.head (moves_into_routine hd hb next waiting)
      (hreach.atop _)).tail rfl
  | failed fuel hb hrun =>
    obtain ⟨last, hreach, hlast, rfl⟩ := reaches_of_run hrun
    rw [eq_of_failed hlast] at hreach
    exact (Relation.ReflTransGen.head (moves_into_routine hd hb next waiting)
      (hreach.atop _)).tail rfl

theorem Steps.answers {r : Except MachineError Bool} (h : s.Steps r s') :
    s.Answers .step r s' := by
  intro next waiting
  cases h with
  | refused hd => exact .single (by simp only [Moves, Request.ask, Execution.next, enterStep, hd])
  | idle hd => exact .single (by simp only [Moves, Request.ask, Execution.next, enterStep, hd])
  | returned hd hi => exact hi.reaches hd next waiting
  | failed hd hi => exact hi.reaches hd next waiting

theorem Steps.of_run (hd : s.machine.demand = .ok true) {key : Key} {body : Program ρ}
    (hb : s.currentBehaviour = .routine key body) {fuel : Nat} {r : ρ}
    (hrun : run fuel (.start s.begun body) = some (.finished r, s')) {moved : Bool}
    (hp : s'.machine.progressed = moved) : s.Steps (.ok moved) s' :=
  hp ▸ .returned hd (.returned fuel hb hrun)

/-- A run in which the current state is invoked does not end before the state does, unless by its
panic. -/
theorem invokes_of_run (hd : s.machine.demand = .ok true) {fuel : Nat}
    {next : Except MachineError Bool → Program ρ} {waiting : List (Activation ρ)}
    {outcome : Outcome ρ} {last : Site ρ}
    (h : run fuel { site := s, focus := .step next, waiting } = some (outcome, last)) :
    (∃ r s', s.Invokes r s') ∨ ∃ message, outcome = .panicked message := by
  cases hb : s.currentBehaviour with
  | constant key => exact .inl ⟨_, _, .constant hb⟩
  | pop | iterate | iterateNext => exact .inl ⟨_, _, .builtin hb rfl⟩
  | routine key body =>
    have hbegins : Reaches _ _ := .single (moves_into_routine hd hb next waiting)
    have hrun := hbegins.run_eq h
    obtain ⟨⟨ended, s'⟩, hbody⟩ := run_of_atop hrun
    cases ended with
    | finished r => exact .inl ⟨_, _, .returned fuel hb hbody⟩
    | failed error => exact .inl ⟨_, _, .failed fuel hb hbody⟩
    | panicked message =>
      -- A panic of the body is not caught by what waits below it.
      obtain ⟨final, hreach, hfinal, -⟩ := reaches_of_run hbody
      have hpanic := (hreach.atop _).run_eq hrun
      cases fuel with
      | zero => cases hpanic
      | succ fuel =>
        rw [run, next_atop_of_panicked hfinal] at hpanic
        cases hpanic
        exact .inr ⟨message, rfl⟩

theorem steps_of_run {fuel : Nat} {next : Except MachineError Bool → Program ρ}
    {waiting : List (Activation ρ)} {outcome : Outcome ρ} {last : Site ρ}
    (h : run fuel { site := s, focus := .step next, waiting } = some (outcome, last)) :
    (∃ r s', s.Steps r s') ∨ ∃ message, outcome = .panicked message := by
  cases hd : s.machine.demand with
  | error error => exact .inl ⟨_, _, .refused hd⟩
  | ok due =>
    cases due with
    | false => exact .inl ⟨_, _, .idle hd⟩
    | true =>
      rcases invokes_of_run hd h with ⟨r, s', hi⟩ | hpanicked
      · cases r with
        | ok u => exact .inl ⟨_, _, .returned hd hi⟩
        | error error => exact .inl ⟨_, _, .failed hd hi⟩
      · exact .inr hpanicked

theorem answers_step_iff {r : Except MachineError Bool} : s.Answers .step r s' ↔ s.Steps r s' :=
  answers_iff_of_complete Steps.answers steps_of_run

end Step

section Drivers

variable {s s' : Site ρ} {r : Except MachineError Unit}

theorem Goes.answers (h : s.Goes r s') : s.Answers .go r s' := by
  induction h with
  | failed hs => exact fun next waiting => .head rfl (hs.answers _ waiting)
  | rested hs => exact fun next waiting => .head rfl (hs.answers _ waiting)
  | on hs _ ih =>
    intro next waiting
    exact .head rfl ((hs.answers _ waiting).trans (ih next waiting))

theorem goes_of_run {fuel : Nat} {next : Except MachineError Unit → Program ρ}
    {waiting : List (Activation ρ)} {outcome : Outcome ρ} {last : Site ρ}
    (h : run fuel { site := s, focus := .go next, waiting } = some (outcome, last)) :
    (∃ r s', s.Goes r s') ∨ ∃ message, outcome = .panicked message := by
  induction fuel generalizing s with
  | zero => cases h
  | succ fuel ih =>
    rw [run] at h
    rcases steps_of_run h with ⟨r, s₁, hs⟩ | hpanicked
    · rcases r with error | _ | _
      · exact .inl ⟨_, _, .failed hs⟩
      · exact .inl ⟨_, _, .rested hs⟩
      · rcases ih ((hs.answers _ waiting).run_eq h) with ⟨r, s', hg⟩ | hpanicked
        · exact .inl ⟨_, _, .on hs hg⟩
        · exact .inr hpanicked
    · exact .inr hpanicked

theorem answers_go_iff : s.Answers .go r s' ↔ s.Goes r s' :=
  answers_iff_of_complete Goes.answers goes_of_run

theorem finish_moves_of_done (hdone : s.machine.isDone = true)
    (next : Except MachineError Unit → Program ρ) (waiting : List (Activation ρ)) :
    Moves { site := s, focus := .finish next, waiting }
      { site := s, focus := next (.ok ()), waiting } := by
  simp only [Moves, Execution.next, hdone, if_true]

theorem finish_moves_of_not_done (hdone : s.machine.isDone = false)
    (next : Except MachineError Unit → Program ρ) (waiting : List (Activation ρ)) :
    Moves { site := s, focus := .finish next, waiting }
      { site := s, focus := .step (.finishOn next), waiting } := by
  simp only [Moves, Execution.next, hdone]
  rfl

theorem Finishes.answers (h : s.Finishes r s') : s.Answers .finish r s' := by
  induction h with
  | done hdone => exact fun next waiting => .single (finish_moves_of_done hdone next waiting)
  | failed hdone hs =>
    intro next waiting
    exact .head (finish_moves_of_not_done hdone next waiting) (hs.answers _ waiting)
  | on hdone hs _ ih =>
    intro next waiting
    exact .head (finish_moves_of_not_done hdone next waiting)
      ((hs.answers (.finishOn next) waiting).trans (ih next waiting))

theorem finishes_of_run {fuel : Nat} {next : Except MachineError Unit → Program ρ}
    {waiting : List (Activation ρ)} {outcome : Outcome ρ} {last : Site ρ}
    (h : run fuel { site := s, focus := .finish next, waiting } = some (outcome, last)) :
    (∃ r s', s.Finishes r s') ∨ ∃ message, outcome = .panicked message := by
  induction fuel generalizing s with
  | zero => cases h
  | succ fuel ih =>
    cases hdone : s.machine.isDone with
    | true => exact .inl ⟨_, _, .done hdone⟩
    | false =>
      have hmoves : _ = _ := finish_moves_of_not_done hdone next waiting
      rw [run, hmoves] at h
      rcases steps_of_run h with ⟨r, s₁, hs⟩ | hpanicked
      · cases r with
        | error error => exact .inl ⟨_, _, .failed hdone hs⟩
        | ok moved =>
          rcases ih ((hs.answers (.finishOn next) waiting).run_eq h) with ⟨r, s', hf⟩ | hpanicked
          · exact .inl ⟨_, _, .on hdone hs hf⟩
          · exact .inr hpanicked
      · exact .inr hpanicked

theorem answers_finish_iff : s.Answers .finish r s' ↔ s.Finishes r s' :=
  answers_iff_of_complete Finishes.answers finishes_of_run

end Drivers

end Site

end StateEngine
