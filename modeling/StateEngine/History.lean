import StateEngine.Key
import StateEngine.Timestamp

/-!
# Bounded logs of transitions

A history that is at its limit lets the oldest record go for each new one and counts what it let go,
so that the records and the count together tell how many transitions there were.
-/

namespace StateEngine

/-- One transition: the keys left and entered, the number of activations before it, and when. -/
structure Record where
  source : Key
  target : Key
  step : Nat
  time : Timestamp
  deriving DecidableEq

/-- The latest transitions, the oldest first. -/
structure History where
  records : List Record
  limit : Nat
  dropped : Nat
  deriving DecidableEq

namespace History

def defaultLimit : Nat := 1024

def withLimit (limit : Nat) : History := { records := [], limit, dropped := 0 }

/-- Adds a record. At the limit the oldest record makes room, and with the limit zero the new one is
only counted. -/
def record (h : History) (r : Record) : History :=
  if h.limit = 0 then { h with dropped := h.dropped + 1 }
  else if h.records.length = h.limit then
    { h with records := h.records.drop 1 ++ [r], dropped := h.dropped + 1 }
  else { h with records := h.records ++ [r] }

def clear (h : History) : History := { h with records := [], dropped := 0 }

def isEnabled (h : History) : Bool := 0 < h.limit

def isEmpty (h : History) : Bool := h.records.isEmpty

def last? (h : History) : Option Record := h.records.getLast?

def path (h : History) : List Key := h.records.map Record.target

/-- Every record is kept or counted. -/
theorem dropped_add_length_record (h : History) (r : Record) :
    (h.record r).dropped + (h.record r).records.length = h.dropped + h.records.length + 1 := by
  unfold record
  split
  · simp only; omega
  · split
    · simp only [List.length_append, List.length_drop, List.length_singleton]; omega
    · simp only [List.length_append, List.length_singleton]; omega

@[simp] theorem limit_record (h : History) (r : Record) : (h.record r).limit = h.limit := by
  unfold record
  split
  · rfl
  · split <;> rfl

end History

end StateEngine
