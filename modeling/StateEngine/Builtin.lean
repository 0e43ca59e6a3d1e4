import StateEngine.Site

/-!
# The built-in states of stack machines

`POP` removes the innermost frame and enters its return key; `ITERATE` and `ITERATE1` call a state
once for every element of an iteration.
-/

namespace StateEngine.Builtin

variable {ρ : Type}

/-- Removes the innermost frame, gives its result to the frame below and enters its return key. With
no frame below, nobody waits for the result, and the refusal to enter is an underflow. -/
def pop (s : Site ρ) : Site.Result ρ Unit :=
  match s.machine.frames with
  | [] => (.error .emptyStack, s)
  | [last] =>
    let bare := s.withFrames []
    match bare.transitTo last.returnKey with
    | .ok s' => (.ok (), s')
    | .error e => (.error (.stackUnderflow s.machine.name e), bare)
  | top :: caller :: rest =>
    let returned := s.withFrames (caller.bind Key.resultVar top.result :: rest)
    returned.settle (returned.transitTo top.returnKey)

/-- Takes the argument of the innermost frame, which must ask for an iteration, and turns it into
the two variables of the loop. The argument is gone even when it asks for nothing of the kind. -/
def iterate (s : Site ρ) : Site.Result ρ Unit :=
  match s.machine.frames with
  | [] => (.error .emptyStack, s)
  | top :: rest =>
    let emptied := { top with argument := none }
    match top.argument with
    | some (.iteration source body) =>
      let frame := (emptied.bind Key.sourceVar (some (.cursor source))).bind Key.bodyVar
        (some (.text body))
      let opened := s.withFrames (frame :: rest)
      opened.settle (opened.transitTo Key.iterateNext)
    | _ =>
      (.error (.argumentType Key.iterate "IterateArgs"), s.withFrames (emptied :: rest))

def source? (frames : Stack) : Option Cursor :=
  match Stack.search frames Key.sourceVar with
  | some (some (.cursor source)) => some source
  | _ => none

def body? (frames : Stack) : Option Key :=
  match Stack.search frames Key.bodyVar with
  | some (some (.text key)) => some key
  | _ => none

/-- Takes the next element and calls the body with it, or leaves the iteration when there is none.
An element once taken is gone, whatever happens then. -/
def iterateNext (s : Site ρ) : Site.Result ρ Unit :=
  match source? s.machine.frames with
  | none => (.error (.unboundVar Key.sourceVar), s)
  | some source =>
    match source.next? with
    | none => s.settle (s.transitTo Key.pop)
    | some (element, source) =>
      let advanced :=
        s.withFrames
          (Stack.rebind Key.sourceVar (fun _ => some (.cursor source)) s.machine.frames)
      match body? advanced.machine.frames with
      | none => (.error (.unboundVar Key.bodyVar), advanced)
      | some body => advanced.call body (some element) Key.iterateNext

end StateEngine.Builtin
