import StateEngine.Program

/-!
# The store of states

A state has a behaviour and, once a machine has taken it, an owner for good.
-/

namespace StateEngine

/-- What a state does when it is invoked. -/
inductive Behaviour (ρ : Type) where
  /-- Fails: the reserved states are never to be run. -/
  | constant (key : Key)
  | pop
  | iterate
  | iterateNext
  | routine (key : Key) (body : Program ρ)

def Behaviour.key {ρ : Type} : Behaviour ρ → Key
  | .constant key => key
  | .pop => Key.pop
  | .iterate => Key.iterate
  | .iterateNext => Key.iterateNext
  | .routine key _ => key

structure Cell (ρ : Type) where
  owner : Option MachineId
  behaviour : Behaviour ρ

structure Store (ρ : Type) where
  cells : Array (Cell ρ)

namespace Store

variable {ρ : Type}

def empty : Store ρ := ⟨#[]⟩

def cell? (store : Store ρ) (h : Handle) : Option (Cell ρ) := store.cells[h.index]?

def owner? (store : Store ρ) (h : Handle) : Option MachineId := (store.cell? h).bind Cell.owner

def alloc (store : Store ρ) (cell : Cell ρ) : Handle × Store ρ :=
  (⟨store.cells.size, cell.behaviour.key⟩, ⟨store.cells.push cell⟩)

def setOwner (store : Store ρ) (h : Handle) (owner : MachineId) : Store ρ :=
  ⟨store.cells.modify h.index fun cell => { cell with owner := some owner }⟩

/-- Gives a state to a machine, which can be done once. -/
def bind (store : Store ρ) (h : Handle) (machine : MachineId) :
    Except MachineError (Store ρ) :=
  match store.owner? h with
  | some owner => .error (.alreadyBound h.key owner)
  | none => .ok (store.setOwner h machine)

/-- The states a machine starts with, besides the one it starts in. -/
def builtins : MachineKind → List (Behaviour ρ)
  | .flat => [.constant Key.error, .constant Key.done]
  | .stack => [.constant Key.error, .constant Key.done, .pop, .iterate, .iterateNext]

/-- Makes states that belong to `owner` and lists them in a table. -/
def install (owner : MachineId) :
    List (Behaviour ρ) → Store ρ → Table Handle → Store ρ × Table Handle
  | [], store, table => (store, table)
  | behaviour :: rest, store, table =>
    let (h, store) := store.alloc { owner := some owner, behaviour }
    install owner rest store (table.insert h.key h)

end Store

namespace Machine

variable {ρ : Type}

/-- A machine in which nothing has happened, and the store with its built-in states. -/
def create (store : Store ρ) (id : MachineId) (kind : MachineKind) : Machine × Store ρ :=
  let (start, store) :=
    store.alloc { owner := some id, behaviour := .constant Key.uninitialized }
  let (store, table) :=
    Store.install id (Store.builtins kind) store (Table.empty.insert Key.uninitialized start)
  ({ id, given := none, kind, table, current := start, progressed := false, steps := 0,
     history := History.withLimit History.defaultLimit, observers := [],
     frames := match kind with
       | .flat => []
       | .stack => Stack.initial },
   store)

end Machine

end StateEngine
