import Mathlib.Order.WellFounded
import StateEngine.Proofs.Commitment
import StateEngine.Proofs.Soundness

/-!
# Requests for a state

Four things can stand in the way of a request for a state. Whether one of them does is a question of
its own; they are looked at in a fixed order, and the first that does is what the request fails with.
A request that nothing stands in the way of enters the state, and one that fails changes nothing.
-/

namespace StateEngine

variable {ρ : Type}

/-- The key of the state that is asked for. -/
def Target.wanted : Target → Key
  | .key k => k
  | .handle h => h.key

/-- What can stand in the way of a request for a state. -/
inductive Obstacle where
  | unknownKey
  | alreadyProgressed
  | foreignState
  | enterError
  deriving DecidableEq

/-- The place of an obstacle in the order in which they are looked at. -/
def Obstacle.rank : Obstacle → Nat
  | .unknownKey => 0
  | .alreadyProgressed => 1
  | .foreignState => 2
  | .enterError => 3

namespace Site

/-- The obstacle is there, whatever else is. A state asked for by its key has to be registered, and
one asked for by its handle has to be the machine's own. -/
inductive Hinders (s : Site ρ) (how : Move) : Target → Obstacle → Prop where
  | unknownKey {key : Key} : s.machine.table.contains key = false →
      Hinders s how (.key key) .unknownKey
  | alreadyProgressed {target : Target} : how ≠ .reset → s.machine.progressed = true →
      Hinders s how target .alreadyProgressed
  | foreignState {h : Handle} : ¬ s.Owns h → Hinders s how (.handle h) .foreignState
  | enterError {target : Target} : target.wanted = Key.error → Hinders s how target .enterError

/-- The obstacle is there and none that is looked at before it. -/
def Stops (s : Site ρ) (how : Move) (target : Target) (o : Obstacle) : Prop :=
  s.Hinders how target o ∧ ∀ o', o'.rank < o.rank → ¬ s.Hinders how target o'

/-- What a request that is stopped by an obstacle fails with. -/
def report (s : Site ρ) (target : Target) : Obstacle → MachineError
  | .unknownKey => .unknownKey target.wanted s.machine.name
  | .alreadyProgressed => .alreadyProgressed s.machine.current.key target.wanted
  | .foreignState => .foreignState target.wanted s.machine.name
  | .enterError => .enterError s.machine.current.key

variable {s : Site ρ} {how : Move} {target : Target}

theorem Stops.unique {o o' : Obstacle} (h : s.Stops how target o) (h' : s.Stops how target o') :
    o = o' := by
  rcases Nat.lt_trichotomy o.rank o'.rank with hlt | heq | hlt
  · exact absurd h.1 (h'.2 o hlt)
  · cases o <;> cases o' <;> first | rfl | cases heq
  · exact absurd h'.1 (h.2 o' hlt)

namespace Sound

end Sound

/-- A machine that stands in the second of two states with one key. -/
def replaced : Site Unit :=
  (((Site.fresh .flat).equip [("A", .link Key.done), ("A", .link "A")]).answer
    (.move .select (.key "A"))).2

end Site

end StateEngine
