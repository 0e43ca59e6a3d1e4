/-!
# Keys with a meaning of their own

The reserved keys, the keys of the states that a stack machine brings along, and the variables in
which calls and iterations keep what they need.
-/

namespace StateEngine

abbrev Key := String

namespace Key

/-- A fault state that can never be entered. -/
def error : Key := "ERROR"

/-- The state of a fresh machine. -/
def uninitialized : Key := "UNINITIALIZED"

/-- Completion: stepping from here does nothing. -/
def done : Key := "DONE"

/-- The keys whose entries no one can replace. -/
def reserved : List Key := [error, uninitialized, done]

def isReserved (key : Key) : Bool := reserved.contains key

/-- Removes the top frame and enters the frame's return key. -/
def pop : Key := "POP"

/-- Opens an iteration. -/
def iterate : Key := "ITERATE"

/-- The loop head of an iteration. -/
def iterateNext : Key := "ITERATE1"

/-- The variable that holds what an iteration has left to visit. -/
def sourceVar : Key := "it"

/-- The variable that holds the key an iteration calls for each element. -/
def bodyVar : Key := "sub_tag"

/-- The variable in which a caller finds what its last call returned. -/
def resultVar : Key := "RESULT"

end Key

end StateEngine
