import StateEngine.Proofs.Marching
import StateEngine.Proofs.Sharing

/-!
# Nested activations

A body that has made a transition can ask for steps itself, and its own activation then waits until
they are answered. When the innermost body fails and each of the others passes the error on, the
error leaves one activation after the other. Each of them adds one layer, which names the state that
it had invoked, wherever the machine has gone since.
-/

namespace StateEngine

open Script (Reply)

variable {ρ : Type}

namespace MachineError

/-- An error that has left the activations of these states, the outermost first. -/
def under (e : MachineError) (machine : String) (states : List Key) : MachineError :=
  states.foldr (fun state cause => .invoke machine state cause) e

end MachineError

namespace Request

/-- The answer to a request that fails. -/
def failure : (request : Request) → MachineError → request.Answer
  | .step, e => .error e
  | .go, e => .error e
  | .finish, e => .error e

/-- The action that makes the request from outside. -/
def action : Request → Script.Action
  | .step => .step
  | .go => .go
  | .finish => .finish

end Request

theorem Site.Did.name_eq {s s' : Site ρ} {op : Op} (h : s.Did op s') :
    s'.machine.name = s.machine.name := by
  cases h with
  | nothing | noted | edited | moved | attached => rfl
  | stacked _ hl => cases hl <;> rfl

namespace Execution

theorem Deed.name_eq {e : Execution ρ} {s' : Site ρ} (h : e.Deed s') :
    s'.machine.name = e.site.machine.name := by
  cases h with
  | idle | wrapped => rfl
  | performed _ hd => exact hd.name_eq
  | activated _ _ hl => cases hl <;> rfl

theorem Reaches.name_eq {e e' : Execution ρ} (h : e.Reaches e') :
    e'.site.machine.name = e.site.machine.name := by
  induction h with
  | refl => rfl
  | tail _ hmove ih => exact (next_deed hmove).name_eq.trans ih

end Execution

namespace Site

open Execution

theorem Answers.name_eq {s s' : Site ρ} {request : Request} {answer : request.Answer}
    (h : s.Answers request answer s') : s'.machine.name = s.machine.name :=
  (h (fun _ => .fail .emptyStack) []).name_eq

theorem Marches.name_eq {s s' : Site ρ} {states : List Key} (h : s.Marches states s') :
    s'.machine.name = s.machine.name := by
  induction h with
  | nil => rfl
  | cons _ hs _ ih => exact ih.trans hs.name_eq

/-- A request has come as far as the site `s₁` and takes its next step there: a single step has no
others before it, the two drives may have taken some. -/
def ComesTo (s : Site ρ) (request : Request) (s₁ : Site ρ) : Prop :=
  ∃ states, s.Marches states s₁ ∧ (request = .step → states = [])

namespace ComesTo

variable {s s₁ s' : Site ρ} {request : Request} {error : MachineError}

theorem refl (s : Site ρ) (request : Request) : s.ComesTo request s := ⟨[], .nil, fun _ => rfl⟩

theorem name_eq (h : s.ComesTo request s₁) : s₁.machine.name = s.machine.name := by
  obtain ⟨states, hmarch, -⟩ := h
  exact hmarch.name_eq

/-- The error of a step is the answer to the request, as it is. -/
theorem answers (h : s.ComesTo request s₁) (hs : s₁.Steps (.error error) s') :
    s.Answers request (request.failure error) s' := by
  obtain ⟨states, hmarch, hstep⟩ := h
  cases request with
  | step =>
    obtain rfl := hstep rfl
    cases hmarch
    exact hs.answers
  | go => exact (hmarch.goes (.failed hs)).answers
  | finish => exact (hmarch.finishes (.failed (hs.not_done nofun) hs)).answers

end ComesTo

/-- A request ends on the site `s'` because the body of the innermost of a chain of nested
activations fails with `e`. The activations are those of the given states, the outermost first. -/
inductive Nests : Site ρ → Request → List Key → MachineError → Site ρ → Prop where
  | innermost {s s₁ s' : Site ρ} {request : Request} {e : MachineError} :
      s.ComesTo request s₁ → s₁.machine.demand = .ok true → s₁.Invokes (.error e) s' →
      Nests s request [s₁.machine.current.key] e s'
  /-- The body comes to make a request of its own, and if this fails, fails with the same error. -/
  | around {s s₁ s₂ s₃ s' : Site ρ} {request inner : Request} {states : List Key}
      {e : MachineError} {key : Key} {body : Program ρ} {next : inner.Answer → Program ρ} :
      s.ComesTo request s₁ → s₁.machine.demand = .ok true →
      s₁.currentBehaviour = .routine key body →
      Reaches (.start s₁.begun body) { site := s₂, focus := inner.ask next, waiting := [] } →
      Nests s₂ inner states e s₃ →
      (∀ error, s₂.Answers inner (inner.failure error) s₃ →
        Reaches { site := s₃, focus := next (inner.failure error), waiting := [] }
          { site := s', focus := .fail error, waiting := [] }) →
      Nests s request (s₁.machine.current.key :: states) e s'

/-- A body that comes to fail is a state that fails. -/
theorem Invokes.of_reaches {s s' : Site ρ} {key : Key} {body : Program ρ} {error : MachineError}
    (hb : s.currentBehaviour = .routine key body)
    (h : Reaches (.start s.begun body) { site := s', focus := .fail error, waiting := [] }) :
    s.Invokes (.error error) s' := by
  have hend : run 1 { site := s', focus := .fail error, waiting := [] } =
      some (.failed error, s') := rfl
  obtain ⟨fuel, hrun⟩ := run_of_reaches h hend
  exact .failed fuel hb hrun

/-- The induction is on the chain: what the inner request is answered is what the body around it
fails with, and the step that invoked this body adds its own layer to it. -/
theorem Nests.answers {s s' : Site ρ} {request : Request} {states : List Key} {e : MachineError}
    (h : s.Nests request states e s') :
    s.Answers request (request.failure (e.under s.machine.name states)) s' := by
  induction h with
  | innermost hcomes hd hi =>
    have hstep := Steps.failed hd hi
    rw [hcomes.name_eq] at hstep
    exact hcomes.answers hstep
  | @around s s₁ s₂ s₃ s' request inner states e key body next hcomes hd hb hasks _ passes ih =>
    have hname : s₂.machine.name = s.machine.name := hasks.name_eq.trans hcomes.name_eq
    rw [hname] at ih
    have hfails := (hasks.trans (ih next [])).trans (passes _ ih)
    have hstep := Steps.failed hd (.of_reaches hb hfails)
    rw [hcomes.name_eq] at hstep
    exact hcomes.answers hstep

end Site

namespace Session

end Session

end StateEngine
