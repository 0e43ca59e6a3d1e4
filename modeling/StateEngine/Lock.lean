import StateEngine.Machine
import StateEngine.Text.Quoted

/-!
# Machines behind a lock

Any number of handles reach one lock; a panic while the lock is held spoils it for all of them, and
the machine can be taken out by whoever holds the only handle.
-/

namespace StateEngine

/-- A machine behind a lock, with the name it had when it went there. -/
structure Lock where
  name : String
  machine : Machine
  /-- How many handles reach the lock. -/
  handles : Nat
  isPoisoned : Bool

namespace Lock

def new (m : Machine) : Lock := { name := m.name, machine := m, handles := 1, isPoisoned := false }

/-- The machine, for whoever takes the lock. -/
def enter (lock : Lock) : Except MachineError Machine :=
  if lock.isPoisoned then .error (.poisoned lock.name) else .ok lock.machine

def leave (lock : Lock) (m : Machine) : Lock := { lock with machine := m }

/-- Gives the lock back out of a panic. -/
def spoil (lock : Lock) (m : Machine) : Lock := { lock with machine := m, isPoisoned := true }

def clone (lock : Lock) : Lock := { lock with handles := lock.handles + 1 }

def release (lock : Lock) : Lock := { lock with handles := lock.handles - 1 }

/-- The machine, for the holder of the only handle, whether the lock is spoilt or not. -/
def intoInner? (lock : Lock) : Option Machine :=
  if lock.handles = 1 then some lock.machine else none

def describe (lock : Lock) : String :=
  "SharedMachine \x7b name: " ++ Text.quoted lock.name ++ ", .. \x7d"

end Lock

end StateEngine
