import StateEngine.Site
import StateEngine.Text.Blank

/-!
# Building machines

A builder collects states and settings. A build checks the keys, then the name, then takes the
states in order, and at last enters the initial state; the first thing that is wrong ends it. The
states taken before that stay with the machine that was lost.
-/

namespace StateEngine

inductive BuildError where
  | duplicateKey (key : Key)
  | emptyName
  | machine (cause : MachineError)
  deriving DecidableEq

namespace BuildError

def message (idText : MachineId → String) : BuildError → String
  | .duplicateKey key => "State key \"" ++ key ++ "\" is defined more than once"
  | .emptyName => "Machine name must not be empty"
  | .machine cause => cause.message idText

end BuildError

/-- What a machine is to be built from. -/
structure Builder where
  kind : MachineKind
  name : Option String
  states : List Handle
  initial : Option Key
  historyLimit : Nat
  observers : List String

namespace Builder

variable {ρ : Type}

def new (kind : MachineKind) : Builder :=
  { kind, name := none, states := [], initial := none, historyLimit := History.defaultLimit,
    observers := [] }

def state (b : Builder) (h : Handle) : Builder := { b with states := b.states ++ [h] }

def routine (b : Builder) (store : Store ρ) (key : Key) (body : Program ρ) : Builder × Store ρ :=
  let (h, store) := store.alloc { owner := none, behaviour := .routine key body }
  (b.state h, store)

def link [Inhabited ρ] (b : Builder) (store : Store ρ) (key next : Key) : Builder × Store ρ :=
  b.routine store key (.link next)

/-- The first key that stands earlier in the list. -/
def firstRepeated? (seen : List Key) : List Key → Option Key
  | [] => none
  | key :: rest => if key ∈ seen then some key else firstRepeated? (key :: seen) rest

/-- Takes states in order up to the first that is refused. -/
def attachAll : List Handle → Site ρ → Site.Result ρ Unit
  | [], s => (.ok (), s)
  | h :: rest, s =>
    match s.attach h with
    | .ok (_, s) => attachAll rest s
    | .error e => (.error e, s)

def enterInitial (b : Builder) (s : Site ρ) : Site.Result ρ Unit :=
  match b.initial with
  | none => (.ok (), s)
  | some key => s.settle (s.move .select (.key key))

/-- The machine before it has taken its states. -/
def bare (b : Builder) (m : Machine) : Machine :=
  { m with
    given := b.name
    history := History.withLimit b.historyLimit
    observers := b.observers }

/-- Builds a machine with the identity `id` at the time `clock`. The store is changed even when
nothing is built. -/
def build (b : Builder) (store : Store ρ) (id : MachineId) (clock : Timestamp) :
    Except BuildError Machine × Store ρ :=
  match firstRepeated? [] (b.states.map Handle.key) with
  | some key => (.error (.duplicateKey key), store)
  | none =>
    let (m, store) := Machine.create store id b.kind
    if b.name.any Text.allBlank then (.error .emptyName, store)
    else
      let s : Site ρ := { machine := b.bare m, store, shelf := .empty, journal := [], clock }
      match attachAll b.states s with
      | (.error e, s) => (.error (.machine e), s.store)
      | (.ok (), s) =>
        match b.enterInitial s with
        | (.error e, s) => (.error (.machine e), s.store)
        | (.ok (), s) => (.ok s.machine, s.store)

/-- Each key with the one that follows it in a chain; the last is followed by completion. -/
def chainLinks : List Key → List (Key × Key)
  | [] => []
  | [last] => [(last, Key.done)]
  | key :: next :: rest => (key, next) :: chainLinks (next :: rest)

def chain [Inhabited ρ] (b : Builder) (store : Store ρ) (keys : List Key) : Builder × Store ρ :=
  (chainLinks keys).foldl (fun (b, store) (key, next) => b.link store key next) (b, store)

end Builder

end StateEngine
