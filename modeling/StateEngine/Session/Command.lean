import StateEngine.Builder
import StateEngine.History.Json
import StateEngine.Script.Action

/-!
# Commands and answers

What can be asked of a session, and what a session answers. Machines, handles, locks, frames and
histories go by labels.
-/

namespace StateEngine.Session

open Script (Action Reply)

inductive BuildStep where
  | name (name : String)
  | link (key next : Key)
  | state (key : Key) (body : List Action)
  /-- A state whose handle is kept under a label. -/
  | kept (label : String)
  | initial (key : Key)
  | historyLimit (limit : Nat)
  | observer (observer : String)

inductive FrameCommand where
  | opened (returnKey : Key) (argument : Option Value)
  | putResult (v : Value)
  | setVar (name : String) (v : Value)
  | bind (name : String) (v : Option Value)
  | unbind (name : String)
  | var (t : ValueType) (name : String)
  | argument (t : ValueType)
  | result (t : ValueType)
  | put (name : String) (v : Value)
  | isBound (name : String)
  | contents
  | describe

inductive HistoryCommand where
  | new (limit : Option Nat)
  | read (text : String)
  | copy (target : String)
  | record (json : Json)
  | clear
  | info
  | writeRecords
  | write

inductive Command where
  | create (label : String) (kind : MachineKind)
  /-- Builds a machine, with a chain of links after the other states if one is given. -/
  | build (label : String) (kind : MachineKind) (steps : List BuildStep)
      (chain : Option (List Key))
  | drop (label : String)
  | act (label : String) (action : Action)
  | newHandle (label : String) (kind : MachineKind) (key : Key) (body : List Action)
  | handleInfo (label : String) (other : Option String) (kind : MachineKind)
  | isReserved (key : Key)
  | constants
  | explain (e : MachineError)
  | share (label lock : String)
  | cloneLock (lock target : String)
  | releaseLock (lock : String)
  | intoInner (lock label : String)
  /-- Carries out an action while the lock is held. -/
  | locked (lock : String) (action : Action)
  /-- Carries out an action while another thread holds the lock. -/
  | detached (lock : String) (action : Action)
  | lockedKey (lock : String)
  | lockedDone (lock : String)
  | lockedStatus (lock : String)
  | lockName (lock : String)
  | describeLock (lock : String)
  | frame (label : String) (command : FrameCommand)
  | history (label : String) (command : HistoryCommand)

structure HandleInfo where
  handle : Handle
  owner : Option MachineId
  ownerLabel : Option String
  /-- Whether it stands for the same state as another handle. -/
  same : Option Bool

inductive Answer where
  | reply (r : Reply)
  | failed (e : MachineError)
  | notBuilt (e : BuildError)
  /-- The run was given up; another thread keeps its message to itself. -/
  | panicked (message : Option String)
  | handle (info : HandleInfo)
  | constants
  | status (m : Machine)
  | historyInfo (h : History)
  | unreadable
  | missing (label : String)
  | unfinished

def Answer.isPanic : Answer → Bool
  | .panicked _ => true
  | _ => false

/-- An answer and what was written down on the way. -/
structure Response where
  answer : Answer
  journal : List Entry

end StateEngine.Session
