import StateEngine.Builtin

/-!
# Running programs

An execution is a program in progress together with the activations that wait below it;
`Execution.next` is its one small step, so that every moment of a run can be spoken of. An error
that leaves an activation is wrapped in the name of the machine and the key of the state that was
invoked, not the key of the state that is current by then.
-/

namespace StateEngine

/-- An activation that is under way: which state of which machine was invoked, and what is done with
the outcome. -/
structure Activation (ρ : Type) where
  machine : String
  state : Key
  resume : Except MachineError Bool → Program ρ

/-- A program in progress on a site. -/
structure Execution (ρ : Type) where
  site : Site ρ
  focus : Program ρ
  /-- The activations that wait for the focus, the innermost first. -/
  waiting : List (Activation ρ)

inductive Outcome (ρ : Type) where
  | finished (r : ρ)
  | failed (e : MachineError)
  | panicked (message : String)

namespace Activation

variable {ρ : Type}

def succeed (a : Activation ρ) (s : Site ρ) : Program ρ := a.resume (.ok s.machine.progressed)

def fail (a : Activation ρ) (e : MachineError) : Program ρ :=
  a.resume (.error (.invoke a.machine a.state e))

end Activation

namespace Execution

variable {ρ : Type}

def start (site : Site ρ) (p : Program ρ) : Execution ρ := { site, focus := p, waiting := [] }

def settle (a : Activation ρ) (waiting : List (Activation ρ)) (r : Site.Result ρ Unit) :
    Execution ρ :=
  { site := r.2, waiting
    focus := match r.1 with
      | .ok () => a.succeed r.2
      | .error e => a.fail e }

/-- Begins the activation of a state on a site where the machine is ready for it. -/
def invoke (site : Site ρ) (behaviour : Behaviour ρ) (a : Activation ρ)
    (waiting : List (Activation ρ)) : Execution ρ :=
  match behaviour with
  | .constant key => { site, waiting, focus := a.fail (.constantInvoked key) }
  | .pop => settle a waiting (Builtin.pop site)
  | .iterate => settle a waiting (Builtin.iterate site)
  | .iterateNext => settle a waiting (Builtin.iterateNext site)
  | .routine _ body => { site, waiting := a :: waiting, focus := body }

/-- One step of the machine: the current state is invoked if the machine asks for that. -/
def enterStep (site : Site ρ) (resume : Except MachineError Bool → Program ρ)
    (waiting : List (Activation ρ)) : Execution ρ :=
  match site.machine.demand with
  | .error e => { site, waiting, focus := resume (.error e) }
  | .ok false => { site, waiting, focus := resume (.ok false) }
  | .ok true =>
    let current := site.machine.current
    let behaviour := ((site.store.cell? current).map Cell.behaviour).getD (.constant current.key)
    invoke { site with machine := site.machine.activate } behaviour
      { machine := site.machine.name, state := current.key, resume } waiting

/-- The next moment of an execution, or how it ended. -/
def next (e : Execution ρ) : Execution ρ ⊕ Outcome ρ :=
  match e.focus with
  | .done r =>
    match e.waiting with
    | [] => .inr (.finished r)
    | a :: rest => .inl { e with focus := a.succeed e.site, waiting := rest }
  | .fail error =>
    match e.waiting with
    | [] => .inr (.failed error)
    | a :: rest => .inl { e with focus := a.fail error, waiting := rest }
  | .panic message => .inr (.panicked message)
  | .perform op go =>
    let (answer, site) := e.site.answer op
    .inl { e with site, focus := go answer }
  | .wrap key body go =>
    let (h, store) := e.site.store.alloc { owner := none, behaviour := .routine key body }
    .inl { e with site := { e.site with store }, focus := go h }
  | .step go => .inl (enterStep e.site go e.waiting)
  | .go go =>
    .inl { e with
      focus := .step fun
        | .error error => go (.error error)
        | .ok true => .go go
        | .ok false => go (.ok ()) }
  | .finish go =>
    .inl { e with
      focus :=
        if e.site.machine.isDone then go (.ok ())
        else .step fun
          | .error error => go (.error error)
          | .ok _ => .finish go }

/-- Runs to the end, if that takes fewer than `fuel` steps. -/
def run : Nat → Execution ρ → Option (Outcome ρ × Site ρ)
  | 0, _ => none
  | fuel + 1, e =>
    match e.next with
    | .inl e => run fuel e
    | .inr outcome => some (outcome, e.site)

theorem run_mono {fuel more : Nat} {e : Execution ρ} {r : Outcome ρ × Site ρ}
    (h : run fuel e = some r) (hle : fuel ≤ more) : run more e = some r := by
  induction fuel generalizing e more with
  | zero => simp [run] at h
  | succ fuel ih =>
    obtain ⟨more, rfl⟩ : ∃ n, more = n + 1 := ⟨more - 1, by omega⟩
    rw [run] at h ⊢
    split
    · rename_i e' he
      rw [he] at h
      exact ih h (by omega)
    · rename_i outcome he
      rw [he] at h
      exact h

end Execution

end StateEngine
