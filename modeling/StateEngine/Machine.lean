import StateEngine.Error
import StateEngine.Frame
import StateEngine.History

/-!
# Machines

A machine keeps a table of states, the state it is in, and whether a transition has been made since
the last activation began. A stack machine also keeps the frames of its open calls.
-/

namespace StateEngine

inductive MachineKind where
  | flat
  | stack
  deriving DecidableEq

/-- A machine. On a flat machine `frames` is empty. -/
structure Machine where
  id : MachineId
  given : Option String
  kind : MachineKind
  table : Table Handle
  current : Handle
  /-- Set by a transition and cleared when an activation begins. -/
  progressed : Bool
  /-- How many activations there have been. -/
  steps : Nat
  history : History
  /-- The observers in the order in which they are told of a transition. -/
  observers : List String
  frames : Stack

namespace Machine

/-- How a machine without a name of its own is called. -/
def automaticName : String := "machine-########"

def name (m : Machine) : String := m.given.getD automaticName

def isDone (m : Machine) : Bool := m.current.key == Key.done

def decode (m : Machine) (key : Key) : Except MachineError Handle :=
  match m.table.get? key with
  | some h => .ok h
  | none => .error (.unknownKey key m.name)

def enter (m : Machine) (h : Handle) (now : Timestamp) : Machine :=
  { m with
    current := h
    progressed := true
    history := m.history.record
      { source := m.current.key, target := h.key, step := m.steps, time := now } }

/-- Whether a step has a state to invoke. There is none when the machine is done or when the last
activation made no transition. -/
def demand (m : Machine) : Except MachineError Bool :=
  if m.current.key = Key.done then .ok false
  else if m.current.key = Key.error then .error (.stuck m.name)
  else if m.current.key = Key.uninitialized then .error (.uninitialized m.name)
  else .ok m.progressed

def activate (m : Machine) : Machine := { m with progressed := false, steps := m.steps + 1 }

def frame (m : Machine) : Except MachineError Frame :=
  match m.frames with
  | [] => .error .emptyStack
  | top :: _ => .ok top

/-- The frame `depth` calls further out than the innermost. -/
def frameAt (m : Machine) (depth : Nat) : Except MachineError Frame :=
  match m.frames[depth]? with
  | some frame => .ok frame
  | none => .error (.frameOutOfRange depth m.frames.length)

/-- The argument of the innermost frame, if it has type `t`. -/
def argument? (m : Machine) (t : ValueType) : Option Value :=
  (m.frames.head?.bind Frame.argument).bind (·.as? t)

def var? (m : Machine) (t : ValueType) (name : String) : Option Value := Stack.var? m.frames t name

/-- What the most recent call returned, if it has type `t`. -/
def result? (m : Machine) (t : ValueType) : Option Value := m.var? t Key.resultVar

end Machine

end StateEngine
