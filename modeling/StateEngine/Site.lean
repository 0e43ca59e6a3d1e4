import StateEngine.Store

/-!
# A machine and what its states can reach

A site holds one machine, the store of states, the handles that were put aside, the journal, and the
clock. An operation that is refused says why and leaves the site as it was, unless its answer
carries a site of its own.
-/

namespace StateEngine

structure Site (ρ : Type) where
  machine : Machine
  store : Store ρ
  shelf : Table Handle
  /-- What was written down, the oldest first. -/
  journal : List Entry
  clock : Timestamp

namespace Site

variable {ρ : Type}

/-- An operation that may change the site even when it fails. -/
abbrev Result (ρ α : Type) := Except MachineError α × Site ρ

/-- The answer of an operation that leaves the site alone when it fails. -/
def settle (s : Site ρ) : Except MachineError (Site ρ) → Result ρ Unit
  | .ok s' => (.ok (), s')
  | .error e => (.error e, s)

/-- Whether the machine owns a state. -/
def Owns (s : Site ρ) (h : Handle) : Prop := s.store.owner? h = some s.machine.id

instance (s : Site ρ) (h : Handle) : Decidable (s.Owns h) :=
  inferInstanceAs (Decidable (_ = _))

/-- Enters a state that the machine owns and that is not the fault state. -/
def commit (s : Site ρ) (h : Handle) : Except MachineError (Site ρ) :=
  if ¬ s.Owns h then .error (.foreignState h.key s.machine.name)
  else if h.key = Key.error then .error (.enterError s.machine.current.key)
  else .ok { s with machine := s.machine.enter h s.clock }

/-- Enters a state unless the current activation already made a transition. -/
def select (s : Site ρ) (h : Handle) : Except MachineError (Site ρ) :=
  if s.machine.progressed then .error (.alreadyProgressed s.machine.current.key h.key)
  else s.commit h

def announce (s : Site ρ) (source target : Key) : Site ρ :=
  { s with
    journal := s.journal ++ s.machine.observers.map fun o => .notified o source target }

/-- Enters a state like `select` and tells the observers. -/
def transit (s : Site ρ) (h : Handle) : Except MachineError (Site ρ) :=
  match s.select h with
  | .ok s' => .ok (s'.announce s.machine.current.key h.key)
  | .error e => .error e

def enterBy (s : Site ρ) : Move → Handle → Except MachineError (Site ρ)
  | .select, h => s.select h
  | .transit, h => s.transit h
  | .reset, h => s.commit h

/-- The state that a target names on this machine. -/
def resolve (s : Site ρ) : Target → Except MachineError Handle
  | .key key => s.machine.decode key
  | .handle h => .ok h

def move (s : Site ρ) (how : Move) (target : Target) : Except MachineError (Site ρ) :=
  match s.resolve target with
  | .ok h => s.enterBy how h
  | .error e => .error e

def transitTo (s : Site ρ) (key : Key) : Except MachineError (Site ρ) :=
  s.move .transit (.key key)

/-- Takes a state that has no owner into the table, in place of the one with the same key. -/
def attach (s : Site ρ) (h : Handle) : Except MachineError (Option Handle × Site ρ) :=
  if Key.isReserved h.key then .error (.reservedKey h.key)
  else
    match s.store.bind h s.machine.id with
    | .error e => .error e
    | .ok store =>
      .ok (s.machine.table.get? h.key,
        { s with
          store
          machine := { s.machine with table := s.machine.table.insert h.key h } })

def withFrames (s : Site ρ) (frames : Stack) : Site ρ :=
  { s with machine := { s.machine with frames } }

def withHistory (s : Site ρ) (history : History) : Site ρ :=
  { s with machine := { s.machine with history } }

def onTop (s : Site ρ) (f : Frame → Except MachineError Frame) : Except MachineError (Site ρ) :=
  match s.machine.frames with
  | [] => .error .emptyStack
  | top :: rest =>
    match f top with
    | .ok top => .ok (s.withFrames (top :: rest))
    | .error e => .error e

/-- Changes the frame `depth` calls further out than the innermost. -/
def onFrame (s : Site ρ) (depth : Nat) (f : Frame → Except MachineError Frame) :
    Except MachineError (Site ρ) :=
  match s.machine.frameAt depth with
  | .error e => .error e
  | .ok frame =>
    match f frame with
    | .ok frame => .ok (s.withFrames (s.machine.frames.set depth frame))
    | .error e => .error e

def writeResult (value : Value) (frame : Frame) : Except MachineError Frame :=
  match frame.putResult? value with
  | some frame => .ok frame
  | none => .error (.resultAlreadySet frame.returnKey)

/-- Opens a frame and enters the callee. The frame stays when the callee cannot be entered; an
unknown callee opens none. -/
def call (s : Site ρ) (callee : Key) (argument : Option Value) (returnKey : Key) : Result ρ Unit :=
  match s.machine.decode callee with
  | .error e => (.error e, s)
  | .ok h =>
    let opened := s.withFrames (.opened returnKey argument :: s.machine.frames)
    opened.settle (opened.transit h)

/-- Writes the result of the innermost frame and enters the state that removes it. The result stays
when that state cannot be entered. -/
def giveBack (s : Site ρ) (value : Value) : Result ρ Unit :=
  match s.onTop (writeResult value) with
  | .error e => (.error e, s)
  | .ok s' => s'.settle (s'.transitTo Key.pop)

/-- Binds in the innermost frame what the search finds for `source`, if it has type `t`. -/
def copyVar (s : Site ρ) (t : ValueType) (source target : String) :
    Except MachineError (Site ρ) :=
  match s.machine.var? t source with
  | none => .error (.unboundVar source)
  | some value => s.onTop fun frame => .ok (frame.bind target (some value))

/-- Changes the value that the search finds for `name`, if it has type `t`; answers whether it
did. -/
def updateVar (s : Site ρ) (t : ValueType) (name : String) (f : Value → Value) : Bool × Site ρ :=
  if (s.machine.var? t name).isSome then
    (true, s.withFrames (Stack.rebind name (·.map f) s.machine.frames))
  else (false, s)

def rebindVar (s : Site ρ) (name : String) (value : Option Value) : Bool × Site ρ :=
  if (Stack.search s.machine.frames name).isSome then
    (true, s.withFrames (Stack.rebind name (fun _ => value) s.machine.frames))
  else (false, s)

def unbindVarAt (s : Site ρ) (depth : Nat) (name : String) : Result ρ (Option Value) :=
  match s.machine.frameAt depth with
  | .error e => (.error e, s)
  | .ok frame =>
    (.ok (frame.binding? name).join,
      s.withFrames (s.machine.frames.set depth (frame.unbind name)))

def answer (s : Site ρ) : (op : Op) → op.Answer × Site ρ
  | .inspect => (s.machine, s)
  | .move how target => s.settle (s.move how target)
  | .attach h =>
    match s.attach h with
    | .ok (replaced, s') => (.ok replaced, s')
    | .error e => (.error e, s)
  | .observe observer =>
    ((), { s with machine := { s.machine with observers := s.machine.observers ++ [observer] } })
  | .clearHistory => ((), s.withHistory s.machine.history.clear)
  | .limitHistory limit => ((), s.withHistory (History.withLimit limit))
  | .recordDirectly source target step =>
    ((), s.withHistory (s.machine.history.record { source, target, step, time := s.clock }))
  | .call callee argument returnKey => s.call callee argument returnKey
  | .putResult value => s.settle (s.onTop (writeResult value))
  | .giveBack value => s.giveBack value
  | .bindVar name value => s.settle (s.onTop fun frame => .ok (frame.bind name value))
  | .copyVar t source target => s.settle (s.copyVar t source target)
  | .putResultAt depth value => s.settle (s.onFrame depth (writeResult value))
  | .bindVarAt depth name value =>
    s.settle (s.onFrame depth fun frame => .ok (frame.bind name value))
  | .unbindVarAt depth name => s.unbindVarAt depth name
  | .updateVar t name f => s.updateVar t name f
  | .rebindVar name value => s.rebindVar name value
  | .resetStack => ((), s.withFrames Stack.initial)
  | .write entry => ((), { s with journal := s.journal ++ [entry] })
  | .keep label h => ((), { s with shelf := s.shelf.insert label h })
  | .fetch label => (s.shelf.get? label, s)

end Site

end StateEngine
