import StateEngine.Machine

/-!
# Programs, the bodies of states

A program makes one request after another and goes on with the answer. Requests for a step suspend
it until the machine has run the state that it was in.
-/

namespace StateEngine

inductive Move where
  /-- Enter it unless a transition was already made. -/
  | select
  /-- Enter it unless a transition was already made, and tell the observers. -/
  | transit
  /-- Enter it in any case. -/
  | reset
  deriving DecidableEq

inductive Target where
  | key (key : Key)
  | handle (h : Handle)
  deriving DecidableEq

/-- What is written down while a machine runs. -/
inductive Entry where
  /-- An observer was told of a transition. -/
  | notified (observer : String) (source target : Key)
  | noted (value : Option Value)
  | refused (e : MachineError)

/-- A request that is answered at once. -/
inductive Op where
  | inspect
  | move (how : Move) (target : Target)
  | attach (h : Handle)
  | observe (observer : String)
  | clearHistory
  | limitHistory (limit : Nat)
  /-- Adds a record of a transition that was not made. -/
  | recordDirectly (source target : Key) (step : Nat)
  | call (callee : Key) (argument : Option Value) (returnKey : Key)
  | putResult (value : Value)
  /-- Writes the result of the innermost frame and leaves for the state that removes it. -/
  | giveBack (value : Value)
  | bindVar (name : String) (value : Option Value)
  /-- Binds in the innermost frame what the search finds for `source`, if it has the type. -/
  | copyVar (type : ValueType) (source target : String)
  | putResultAt (depth : Nat) (value : Value)
  | bindVarAt (depth : Nat) (name : String) (value : Option Value)
  | unbindVarAt (depth : Nat) (name : String)
  | updateVar (type : ValueType) (name : String) (f : Value → Value)
  | rebindVar (name : String) (value : Option Value)
  | resetStack
  | write (entry : Entry)
  | keep (label : String) (h : Handle)
  | fetch (label : String)

namespace Op

def Answer : Op → Type
  | .inspect => Machine
  | .attach _ => Except MachineError (Option Handle)
  | .observe _ => Unit
  | .clearHistory => Unit
  | .limitHistory _ => Unit
  | .recordDirectly .. => Unit
  | .unbindVarAt .. => Except MachineError (Option Value)
  | .updateVar .. => Bool
  | .rebindVar .. => Bool
  | .resetStack => Unit
  | .write _ => Unit
  | .keep .. => Unit
  | .fetch _ => Option Handle
  | _ => Except MachineError Unit

end Op

/-- A program that returns a `ρ`, fails, or gives up the whole run. -/
inductive Program (ρ : Type) where
  | done (r : ρ)
  | fail (e : MachineError)
  | panic (message : String)
  | perform (op : Op) (next : op.Answer → Program ρ)
  /-- Makes a new state, not yet attached to any machine. -/
  | wrap (key : Key) (body : Program ρ) (next : Handle → Program ρ)
  /-- Asks for one step of the machine. -/
  | step (next : Except MachineError Bool → Program ρ)
  /-- Asks for steps until one reports no transition. -/
  | go (next : Except MachineError Unit → Program ρ)
  /-- Asks for steps until the machine is done. -/
  | finish (next : Except MachineError Unit → Program ρ)

namespace Program

variable {ρ : Type} [Inhabited ρ]

def settle : Except MachineError Unit → Program ρ
  | .ok () => .done default
  | .error e => .fail e

def link (next : Key) : Program ρ := .perform (.move .transit (.key next)) settle

end Program

end StateEngine
