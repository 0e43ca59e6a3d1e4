import StateEngine.Machine
import StateEngine.Text.Quoted

/-!
# Descriptions of running machines

A description is for a reader who looks into a running machine. It names the parts of a thing and
shows those that are short.
-/

namespace StateEngine

open Text (quoted quotedList)

private def described (name : String) (parts : List (String × String)) : String :=
  name ++ " \x7b " ++ String.intercalate ", " (parts.map fun p => p.1 ++ ": " ++ p.2) ++ " \x7d"

private def flagText (b : Bool) : String := if b then "true" else "false"

namespace Frame

def describe (frame : Frame) : String :=
  described "Frame"
    [("return_tag", quoted frame.returnKey), ("argument", flagText frame.argument.isSome),
      ("retval", flagText frame.result.isSome), ("vars", quotedList frame.vars.sortedKeys)]

end Frame

namespace Stack

/-- The frames from the outermost to the innermost. -/
def describe (frames : Stack) : String :=
  described "Stack"
    [("frames", "[" ++ String.intercalate ", " (frames.reverse.map Frame.describe) ++ "]")]

end Stack

namespace Handle

def describe (idText : MachineId → String) (h : Handle) (owner : Option MachineId) : String :=
  described "StateRef"
    [("key", quoted h.key),
      ("machine", match owner with
        | none => "None"
        | some id => "Some(" ++ idText id ++ ")")]

end Handle

namespace Machine

def describe (idText : MachineId → String) (m : Machine) : String :=
  described "StateMachine"
    [("id", idText m.id), ("name", quoted m.name), ("current", quoted m.current.key),
      ("progressed", flagText m.progressed), ("steps", toString m.steps),
      ("states", toString m.table.size),
      ("extension", match m.kind with
        | .flat => "()"
        | .stack => Stack.describe m.frames)]

end Machine

namespace Value

/-- A request to iterate shows the key it calls and nothing of what it visits. -/
def describeIteration (body : Key) : String :=
  "IterateArgs \x7b sub_tag: " ++ quoted body ++ ", .. \x7d"

end Value

end StateEngine
