import StateEngine.Handle
import StateEngine.Json.Complaint

/-!
# Errors and their messages

What can go wrong in a machine, by cause, and the sentence that reports each cause. An error that
escapes a state is wrapped once for every activation that it leaves.
-/

namespace StateEngine

inductive MachineError where
  | unknownKey (key : Key) (machine : String)
  | reservedKey (key : Key)
  | alreadyBound (key : Key) (owner : MachineId)
  | foreignState (key : Key) (machine : String)
  | alreadyProgressed (current target : Key)
  | enterError (source : Key)
  | uninitialized (machine : String)
  | stuck (machine : String)
  | constantInvoked (key : Key)
  | emptyStack
  | frameOutOfRange (depth size : Nat)
  | unboundVar (name : String)
  | argumentType (state : Key) (expected : String)
  | resultAlreadySet (returnKey : Key)
  | stackUnderflow (machine : String) (cause : MachineError)
  | poisoned (machine : String)
  | serialization (complaint : Json.Complaint)
  | fault (message : String)
  /-- A fault that borrows its words from another error and hides that error. -/
  | faultOf (cause : MachineError)
  | invoke (machine : String) (state : Key) (cause : MachineError)
  deriving DecidableEq

namespace MachineError

private def inQuotes (s : String) : String := "\"" ++ s ++ "\""

/-- The sentence that reports an error; `idText` writes the identity of a machine. -/
def message (idText : MachineId → String) : MachineError → String
  | .unknownKey key machine =>
    "Key " ++ inQuotes key ++ " doesn't name a state in machine " ++ machine
  | .reservedKey key => "Cannot override constant state " ++ inQuotes key
  | .alreadyBound key owner =>
    "State " ++ inQuotes key ++ " is already attached to machine " ++ idText owner
  | .foreignState key machine =>
    "State " ++ inQuotes key ++ " is not registered with machine " ++ machine
  | .alreadyProgressed current target =>
    "Already progressed: " ++ inQuotes current ++ " cannot also transit to " ++ inQuotes target
  | .enterError source => "ERROR state entered from " ++ inQuotes source
  | .uninitialized machine => "Machine " ++ machine ++ " is uninitialized"
  | .stuck machine => "Machine " ++ machine ++ " is stuck in ERROR state"
  | .constantInvoked key => "Constant state " ++ inQuotes key ++ " must never be invoked"
  | .emptyStack => "No stack frame in current state"
  | .frameOutOfRange depth size =>
    "Frame " ++ toString depth ++ " levels up does not exist (stack size " ++ toString size ++ ")"
  | .unboundVar name => "Variable " ++ inQuotes name ++ " is not bound in any frame"
  | .argumentType state expected =>
    "Argument passed to " ++ inQuotes state ++ " is not a " ++ expected
  | .resultAlreadySet returnKey =>
    "Return value already set for frame returning to " ++ inQuotes returnKey
  | .stackUnderflow machine _ =>
    "Stack underflow in machine " ++ machine ++ ": returned past the sentinel frame"
  | .poisoned machine => "Lock for machine " ++ machine ++ " was poisoned"
  | .serialization complaint => "History serialization failed: " ++ complaint.sentence
  | .fault text => text
  | .faultOf cause => cause.message idText
  | .invoke machine state cause =>
    "Caught error in " ++ machine ++ " while invoking " ++ inQuotes state ++ ": " ++
      cause.message idText

/-- What failed first, below the activations that passed it on. -/
def rootCause : MachineError → MachineError
  | .invoke _ _ cause => cause.rootCause
  | e => e

def isStackUnderflow (e : MachineError) : Bool :=
  match e.rootCause with
  | .stackUnderflow .. => true
  | _ => false

/-- The error and what it names as its cause, outermost first. -/
def chain : MachineError → List MachineError
  | .invoke machine state cause => .invoke machine state cause :: cause.chain
  | .stackUnderflow machine cause => .stackUnderflow machine cause :: cause.chain
  | e => [e]

end MachineError

end StateEngine
