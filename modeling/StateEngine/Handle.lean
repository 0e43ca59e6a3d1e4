import StateEngine.Key

/-!
# Names for machines and states

A machine goes by its identity and a registered state by its handle. A handle stands for one state,
wherever it is listed, and carries the key under which that state was made.
-/

namespace StateEngine

structure MachineId where
  serial : Nat
  deriving DecidableEq

/-- A registered state: its place in the store, and its key. -/
structure Handle where
  index : Nat
  key : Key
  deriving DecidableEq

namespace Handle

def title (h : Handle) : String := "State " ++ h.key

end Handle

end StateEngine
