import StateEngine.Table
import StateEngine.Value

/-!
# Frames and stacks of frames

A frame is the record of one call; the stack lists the innermost call first. `Stack.search` is the
dynamic scope: the binding in the first frame that has one, even a binding to nothing.
-/

namespace StateEngine

/-- The record of one call. A variable may be bound to nothing. -/
structure Frame where
  returnKey : Key
  argument : Option Value
  result : Option Value
  vars : Table (Option Value)

namespace Frame

/-- A frame before anything has run in it. -/
def opened (returnKey : Key) (argument : Option Value) : Frame :=
  { returnKey, argument, result := none, vars := .empty }

def bind (frame : Frame) (name : String) (value : Option Value) : Frame :=
  { frame with vars := frame.vars.insert name value }

def unbind (frame : Frame) (name : String) : Frame :=
  { frame with vars := frame.vars.erase name }

/-- What `name` is bound to here; the outer `none` means that it is not bound at all. -/
def binding? (frame : Frame) (name : String) : Option (Option Value) := frame.vars.get? name

def isBound (frame : Frame) (name : String) : Bool := frame.vars.contains name

def var? (frame : Frame) (t : ValueType) (name : String) : Option Value :=
  (frame.binding? name).join.bind (·.as? t)

/-- Changes what `name` is bound to, if it is bound here. -/
def rebind (frame : Frame) (name : String) (f : Option Value → Option Value) : Frame :=
  { frame with vars := frame.vars.modify name f }

/-- Writes the result, which can be done once; `none` when there is one already. -/
def putResult? (frame : Frame) (value : Value) : Option Frame :=
  if frame.result.isSome then none else some { frame with result := some value }

end Frame

/-- The frames of a machine, the innermost first. -/
abbrev Stack := List Frame

namespace Stack

/-- The frame below everything, whose return key can never be entered. -/
def sentinel : Frame := Frame.opened Key.error none

def initial : Stack := [sentinel]

/-- The innermost binding of `name`. -/
def search (stack : Stack) (name : String) : Option (Option Value) :=
  stack.findSome? (·.binding? name)

def var? (stack : Stack) (t : ValueType) (name : String) : Option Value :=
  (search stack name).join.bind (·.as? t)

def rebind (name : String) (f : Option Value → Option Value) : Stack → Stack
  | [] => []
  | frame :: rest =>
    if frame.isBound name then frame.rebind name f :: rest else frame :: rebind name f rest

@[simp] theorem search_nil (name : String) : search [] name = none := rfl

theorem search_cons (frame : Frame) (rest : Stack) (name : String) :
    search (frame :: rest) name = (frame.binding? name).or (search rest name) := by
  simp only [search, List.findSome?_cons]
  cases frame.binding? name <;> rfl

@[simp] theorem length_rebind (stack : Stack) (name : String) (f : Option Value → Option Value) :
    (rebind name f stack).length = stack.length := by
  induction stack with
  | nil => rfl
  | cons frame rest ih =>
    rw [rebind]
    split <;> simp [ih]

/-- A change through the search is what the search finds afterwards. -/
theorem search_rebind (stack : Stack) (name : String) (f : Option Value → Option Value) :
    search (rebind name f stack) name = (search stack name).map f := by
  induction stack with
  | nil => rfl
  | cons frame rest ih =>
    rw [rebind, search_cons]
    by_cases h : frame.isBound name
    · obtain ⟨v, hv⟩ := Option.isSome_iff_exists.mp h
      have hb : frame.binding? name = some v := hv
      have hr : (frame.rebind name f).binding? name = some (f v) := by
        simp [Frame.binding?, Frame.rebind, Table.get?_modify, hv]
      rw [if_pos h, search_cons, hr, hb]
      rfl
    · have hb : frame.binding? name = none := by
        simpa [Frame.isBound, Table.contains, Frame.binding?] using h
      rw [if_neg h, search_cons, hb, ih]
      simp

end Stack

end StateEngine
