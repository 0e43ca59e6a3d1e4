import StateEngine.Execution
import StateEngine.Session.Command
import StateEngine.Lock

/-!
# Sessions

A session keeps machines, handles, locks, frames and histories under labels and carries out commands
on them. A machine that is put behind a lock leaves its label; a label that is given again names the
newer thing.
-/

namespace StateEngine

open Script (Reply)

structure Session where
  store : Store Reply
  machines : Table Machine
  flatHandles : Table Handle
  stackHandles : Table Handle
  locks : Array Lock
  lockLabels : Table Nat
  frames : Table Frame
  histories : Table History
  /-- The label under which each machine was made; it stays when the machine leaves the label. -/
  made : List (MachineId × String)
  nextId : Nat
  clock : Timestamp

namespace Session

def empty : Session where
  store := .empty
  machines := .empty
  flatHandles := .empty
  stackHandles := .empty
  locks := #[]
  lockLabels := .empty
  frames := .empty
  histories := .empty
  made := []
  nextId := 0
  clock := Timestamp.epoch

def labelOf? (s : Session) (id : MachineId) : Option String := s.made.lookup id

def madeAs? (s : Session) (label : String) : Option MachineId :=
  (s.made.find? fun e => e.2 = label).map Prod.fst

def handles (s : Session) : MachineKind → Table Handle
  | .flat => s.flatHandles
  | .stack => s.stackHandles

def withHandles (s : Session) (kind : MachineKind) (handles : Table Handle) : Session :=
  match kind with
  | .flat => { s with flatHandles := handles }
  | .stack => { s with stackHandles := handles }

structure Ran where
  answer : Answer
  machine : Machine
  journal : List Entry
  session : Session

/-- What a machine of the session can reach. -/
def site (s : Session) (m : Machine) : Site Reply :=
  { machine := m, store := s.store, shelf := s.handles m.kind, journal := [], clock := s.clock }

def runOn (s : Session) (fuel : Nat) (m : Machine) (p : Program Reply) : Ran :=
  match Execution.run fuel (.start (s.site m) p) with
  | none => { answer := .unfinished, machine := m, journal := [], session := s }
  | some (outcome, site) =>
    { answer := match outcome with
        | .finished r => .reply r
        | .failed e => .failed e
        | .panicked message => .panicked (some message)
      machine := site.machine
      journal := site.journal
      session := { s with store := site.store }.withHandles m.kind site.shelf }

def plain (s : Session) (answer : Answer) : Response × Session := ({ answer, journal := [] }, s)

def enroll (s : Session) (label : String) (m : Machine) : Session :=
  { s with machines := s.machines.insert label m, made := (m.id, label) :: s.made }

def issue (s : Session) : MachineId × Session := (⟨s.nextId⟩, { s with nextId := s.nextId + 1 })

def create (s : Session) (label : String) (kind : MachineKind) : Session :=
  let (id, s) := s.issue
  let (m, store) := Machine.create s.store id kind
  { s with store }.enroll label m

/-- One call on a builder, with the store in which it makes its states. -/
def buildStep (s : Session) (b : Builder) (store : Store Reply) :
    BuildStep → Builder × Store Reply
  | .name name => ({ b with name := some name }, store)
  | .link key next => b.link store key next
  | .state key actions => b.routine store key (Script.body actions)
  | .kept label =>
    match (s.handles b.kind).get? label with
    | some h => (b.state h, store)
    | none => (b, store)
  | .initial key => ({ b with initial := some key }, store)
  | .historyLimit limit => ({ b with historyLimit := limit }, store)
  | .observer observer => ({ b with observers := b.observers ++ [observer] }, store)

def build (s : Session) (label : String) (kind : MachineKind) (steps : List BuildStep)
    (chain : Option (List Key)) : Answer × Session :=
  let (b, store) :=
    steps.foldl (fun (b, store) step => s.buildStep b store step) (Builder.new kind, s.store)
  let (b, store) := b.chain store (chain.getD [])
  let (id, s) := s.issue
  match b.build store id s.clock with
  | (.ok m, store) => (.reply .done, { s with store }.enroll label m)
  | (.error e, store) => (.notBuilt e, { s with store })

def handleInfo (s : Session) (h : Handle) (other : Option Handle) : HandleInfo :=
  { handle := h
    owner := s.store.owner? h
    ownerLabel := (s.store.owner? h).bind s.labelOf?
    same := other.map fun g => decide (h = g) }

/-- The lock that a label reaches, and its number. -/
def lock? (s : Session) (label : String) : Option (Nat × Lock) := do
  let n ← s.lockLabels.get? label
  some (n, ← s.locks[n]?)

def setLock (s : Session) (n : Nat) (lock : Lock) : Session :=
  { s with locks := s.locks.setIfInBounds n lock }

def releaseLabel (s : Session) (label : String) : Session :=
  match s.lock? label with
  | some (n, lock) => { s.setLock n lock.release with lockLabels := s.lockLabels.erase label }
  | none => s

def pointAt (s : Session) (label : String) (n : Nat) : Session :=
  let s := s.releaseLabel label
  { s with lockLabels := s.lockLabels.insert label n }

/-- Runs a program on the machine at a label. -/
def onMachine (s : Session) (fuel : Nat) (label : String) (p : Program Reply) :
    Response × Session :=
  match s.machines.get? label with
  | none => s.plain (.missing label)
  | some m =>
    let ran := s.runOn fuel m p
    let s := ran.session
    ({ answer := ran.answer, journal := ran.journal },
      { s with machines := s.machines.insert label ran.machine })

/-- The lock after a run on the machine behind it; a panic spoils it. -/
def Ran.handBack (ran : Ran) (lock : Lock) : Lock :=
  if ran.answer.isPanic then lock.spoil ran.machine else lock.leave ran.machine

/-- Runs a program while the lock is held. -/
def runLocked (s : Session) (fuel : Nat) (n : Nat) (lock : Lock) (p : Program Reply) :
    Response × Session :=
  match lock.enter with
  | .error e => s.plain (.failed e)
  | .ok m =>
    let ran := s.runOn fuel m p
    ({ answer := ran.answer, journal := ran.journal },
      ran.session.setLock n (ran.handBack lock))

/-- Runs a program on the machine behind the lock that a label reaches. -/
def throughLock (s : Session) (fuel : Nat) (label : String) (p : Program Reply) :
    Response × Session :=
  match s.lock? label with
  | none => s.plain (.missing label)
  | some (n, lock) => s.runLocked fuel n lock p

/-- What another thread tells of an answer. -/
def detach : Answer → Answer
  | .panicked _ => .panicked none
  | answer => answer

def tellKey (m : Machine) : Answer := .reply (.key (some m.current.key))

def tellDone (m : Machine) : Answer := .reply (.flag m.isDone)

def peek (s : Session) (label : String) (f : Machine → Answer) : Response × Session :=
  match s.lock? label with
  | none => s.plain (.missing label)
  | some (_, lock) =>
    match lock.enter with
    | .error e => s.plain (.failed e)
    | .ok m => s.plain (f m)

def frameCommand (frame : Frame) : FrameCommand → Answer × Frame
  | .opened returnKey argument => (.reply .done, Frame.opened returnKey argument)
  | .putResult v =>
    match Site.writeResult v frame with
    | .ok frame => (.reply .done, frame)
    | .error e => (.failed e, frame)
  | .setVar name v => (.reply .done, frame.bind name (some v))
  | .bind name v => (.reply .done, frame.bind name v)
  | .unbind name => (.reply (.value (frame.binding? name).join), frame.unbind name)
  | .var t name => (.reply (.value ((frame.binding? name).join.bind (·.read? t))), frame)
  | .argument t => (.reply (.value (frame.argument.bind (·.read? t))), frame)
  | .result t => (.reply (.value (frame.result.bind (·.read? t))), frame)
  | .put name v =>
    if (frame.var? v.type name).isSome then (.reply (.flag true), frame.bind name (some v))
    else (.reply (.flag false), frame)
  | .isBound name => (.reply (.flag (frame.isBound name)), frame)
  | .contents => (.reply (.frame frame), frame)
  | .describe => (.reply (.frameText frame), frame)

def historyCommand (h : History) : HistoryCommand → Answer × History
  | .new limit => (.reply .done, History.withLimit (limit.getD History.defaultLimit))
  | .read text =>
    match History.ofText? text with
    | some h => (.reply .done, h)
    | none => (.unreadable, h)
  | .copy _ => (.reply .done, h)
  | .record json =>
    match Record.ofJson? json.collapse with
    | some r => (.reply .done, h.record r)
    | none => (.unreadable, h)
  | .clear => (.reply .done, h.clear)
  | .info => (.historyInfo h, h)
  | .writeRecords => (.reply (.text h.recordsJson.renderText), h)
  | .write => (.reply (.text h.toText), h)

/-- Carries out one command, running at most `fuel` steps of programs. -/
def perform (s : Session) (fuel : Nat) : Command → Response × Session
  | .create label kind => (s.create label kind).plain (.reply .done)
  | .build label kind steps chain =>
    let (answer, s) := s.build label kind steps chain
    s.plain answer
  | .drop label =>
    { s with machines := s.machines.erase label }.plain
      (.reply (.flag (s.machines.contains label)))
  | .act label a => s.onMachine fuel label (Script.outside a)
  | .newHandle label kind key body =>
    let (h, store) :=
      s.store.alloc { owner := none, behaviour := .routine key (Script.body body) }
    ({ s with store }.withHandles kind ((s.handles kind).insert label h)).plain (.reply .done)
  | .handleInfo label other kind =>
    match (s.handles kind).get? label with
    | none => s.plain (.missing label)
    | some h => s.plain (.handle (s.handleInfo h (other.bind (s.handles kind).get?)))
  | .isReserved key => s.plain (.reply (.flag (Key.isReserved key)))
  | .constants => s.plain .constants
  | .explain e => s.plain (.failed e)
  | .share label lock =>
    match s.machines.get? label with
    | none => s.plain (.missing label)
    | some m =>
      let n := s.locks.size
      let s := { s with machines := s.machines.erase label, locks := s.locks.push (.new m) }
      (s.pointAt lock n).plain (.reply .done)
  | .cloneLock lock target =>
    match s.lock? lock with
    | none => s.plain (.missing lock)
    | some (n, l) => ((s.setLock n l.clone).pointAt target n).plain (.reply .done)
  | .releaseLock lock =>
    (s.releaseLabel lock).plain (.reply (.flag (s.lockLabels.contains lock)))
  | .intoInner lock label =>
    match s.lock? lock with
    | none => s.plain (.missing lock)
    | some (_, l) =>
      match l.intoInner? with
      | none => s.plain (.reply (.flag false))
      | some m =>
        let s := s.releaseLabel lock
        { s with machines := s.machines.insert label m }.plain (.reply (.flag true))
  | .locked lock a => s.throughLock fuel lock (Script.outside a)
  | .detached lock a =>
    let (response, s) := s.throughLock fuel lock (Script.outside a)
    ({ response with answer := detach response.answer }, s)
  | .lockedKey lock => s.peek lock tellKey
  | .lockedDone lock => s.peek lock tellDone
  | .lockedStatus lock => s.peek lock .status
  | .lockName lock =>
    match s.lock? lock with
    | none => s.plain (.missing lock)
    | some (_, l) => s.plain (.reply (.text l.name))
  | .describeLock lock =>
    match s.lock? lock with
    | none => s.plain (.missing lock)
    | some (_, l) => s.plain (.reply (.text l.describe))
  | .frame label command =>
    let frame := (s.frames.get? label).getD (.opened "" none)
    let (answer, frame) := frameCommand frame command
    { s with frames := s.frames.insert label frame }.plain answer
  | .history label command =>
    let target := match command with
      | .copy target => target
      | _ => label
    let h := (s.histories.get? label).getD (.withLimit History.defaultLimit)
    let (answer, h) := historyCommand h command
    { s with histories := s.histories.insert target h }.plain answer

end Session

end StateEngine
