import StateEngine.Program
import StateEngine.Script.Expr

/-!
# Actions of scripts

Actions are the sentences of scripts, and each gives a reply. A state can be made from a list of
actions, and the same actions can be carried out on a machine from outside.
-/

namespace StateEngine.Script

/-- A state, named by its key or by the label under which its handle was put aside. -/
inductive Place where
  | key (key : Key)
  | kept (label : String)

inductive Action where
  | move (how : Move) (place : Place)
  | decode (key : Key) (label : String)
  | keepCurrent (label : String)
  | addLink (key next : Key) (keepAs : Option String)
  | add (key : Key) (body : List Action) (keepAs : Option String)
  | attach (label : String) (keepAs : Option String)
  /-- Adds the ready-made state of this kind of machine. -/
  | addStock (keepAs : Option String)
  | observe (observer : String)
  | step
  | go
  | finish
  /-- Steps while that makes progress, at most `limit` times. -/
  | run (limit : Nat)
  /-- Steps a number of times and tells where each step led. -/
  | trace (count : Nat)
  | fail (e : MachineError)
  | panic (message : String)
  | note (e : Expr)
  | eval (e : Expr)
  /-- Carries out actions and writes down the error that ends them, if any. -/
  | attempt (body : List Action)
  | branch (condition : Expr) (positive negative : List Action)
  | loop (count : Nat) (body : List Action)
  | keys
  | name
  | path
  | records
  | lastRecord
  | writeHistory
  | historyState
  | clearHistory
  | limitHistory (limit : Nat)
  | recordDirectly (source target : Key) (step : Nat)
  | describe
  | call (callee : Key) (argument : Expr) (returnKey : Key)
  | giveBack (e : Expr)
  | returnEmpty
  | putResult (e : Expr)
  | putResultAt (depth : Nat) (e : Expr)
  | iterate (source : Source) (body next : Key)
  | setVar (name : String) (e : Expr) (depth : Option Nat)
  | bind (name : String) (e : Expr)
  | copyVar (t : ValueType) (source target : String)
  | unbind (name : String) (depth : Nat)
  /-- Overwrites a variable of the same type, wherever the search finds it. -/
  | put (name : String) (e : Expr)
  | push (name : String) (e : Expr)
  | frame (depth : Option Nat)
  | describeFrame (depth : Option Nat)
  | frames
  | returnKeys
  | returnKeyAt (depth : Nat)
  | top
  | resetStack
  | search (name : String)
  | rebind (name : String) (e : Expr)

inductive Reply where
  | done
  | flag (b : Bool)
  | text (s : String)
  | key (key : Option Key)
  | keys (keys : List Key)
  | replaced (key : Option Key)
  | value (v : Option Value)
  | binding (found : Option (Option Value))
  | called (name : String) (automatic : Bool)
  | records (records : List Record)
  | lastRecord (record : Option Record)
  | history (h : History)
  | historyState (limit : Nat) (isEnabled isEmpty : Bool)
  | ran (steps : Nat) (last : Bool)
  | traced (moments : List (Bool × Key))
  | machine (m : Machine)
  | frame (frame : Frame)
  | frameText (frame : Frame)
  | frames (frames : List Frame)
  | top (returnKey : Option Key) (size : Nat)

instance : Inhabited Reply := ⟨.done⟩

/-- A routine in progress: what is done with the reply or the error of an action. -/
abbrev Next := Except MachineError Reply → Program Reply

abbrev After := Except MachineError Unit → Program Reply

namespace Next

def settle (k : Next) : Except MachineError Unit → Program Reply
  | .ok () => k (.ok .done)
  | .error e => k (.error e)

def reply (k : Next) (r : Reply) : Program Reply := k (.ok r)

def answer (k : Next) {α : Type} (r : Except MachineError α) (f : α → Reply) : Program Reply :=
  match r with
  | .ok a => k (.ok (f a))
  | .error e => k (.error e)

end Next

def look (f : Machine → Program Reply) : Program Reply := .perform .inspect f

def fetch (label : String) (k : Next) (f : Handle → Program Reply) : Program Reply :=
  .perform (.fetch label) fun (h : Option Handle) =>
    match h with
    | some h => f h
    | none => k (.error (.fault ("nothing is kept as " ++ label)))

/-- Attaches a state and keeps the one it replaces, if that is wanted. -/
def attachAs (h : Handle) (keepAs : Option String) (k : Next) : Program Reply :=
  .perform (.attach h) fun (r : Except MachineError (Option Handle)) =>
    match r, keepAs with
    | .error e, _ => k (.error e)
    | .ok (some old), some label =>
      .perform (.keep label old) fun _ => k.reply (.replaced (some old.key))
    | .ok old, _ => k.reply (.replaced (old.map Handle.key))

def runSteps (k : Next) : Nat → Nat → Program Reply
  | 0, taken => k.reply (.ran taken true)
  | limit + 1, taken => .step fun
    | .error e => k (.error e)
    | .ok true => runSteps k limit (taken + 1)
    | .ok false => k.reply (.ran (taken + 1) false)

def traceSteps (k : Next) : Nat → List (Bool × Key) → Program Reply
  | 0, seen => k.reply (.traced seen.reverse)
  | count + 1, seen => .step fun
    | .error e => k (.error e)
    | .ok moved => look fun m => traceSteps k count ((moved, m.current.key) :: seen)

/-- Repeats a list of actions until one of them fails. -/
def repeated (once : After → Program Reply) (k : Next) : Nat → Program Reply
  | 0 => k.reply .done
  | count + 1 => once fun
    | .ok () => repeated once k count
    | .error e => k (.error e)

/-- The key and the body of the ready-made state of a kind of machine: one that is finished at once,
and one that returns twice its argument. -/
def stock : MachineKind → Key × Program Reply
  | .flat => ("Finish", .link Key.done)
  | .stack =>
    ("Double", look fun m =>
      let n := match m.argument? .int with
        | some (.int n) => n
        | _ => 0
      .perform (.giveBack (.int (n * 2))) Program.settle)

mutual
def Action.routine : Action → Next → Program Reply
  | .move how (.key key), k => .perform (.move how (.key key)) k.settle
  | .move how (.kept label), k =>
    fetch label k fun h => .perform (.move how (.handle h)) k.settle
  | .decode key label, k => look fun m =>
    match m.decode key with
    | .error e => k (.error e)
    | .ok h => .perform (.keep label h) fun _ => k.reply (.text h.title)
  | .keepCurrent label, k => look fun m =>
    .perform (.keep label m.current) fun _ => k.reply .done
  | .addLink key next keepAs, k => .wrap key (.link next) fun h => attachAs h keepAs k
  | .add key body keepAs, k =>
    .wrap key (routines body Program.settle) fun h => attachAs h keepAs k
  | .attach label keepAs, k => fetch label k fun h => attachAs h keepAs k
  | .addStock keepAs, k => look fun m =>
    .wrap (stock m.kind).1 (stock m.kind).2 fun h => attachAs h keepAs k
  | .observe observer, k => .perform (.observe observer) fun _ => k.reply .done
  | .step, k => .step fun r => k.answer r .flag
  | .go, k => .go k.settle
  | .finish, k => .finish k.settle
  | .run limit, k => runSteps k limit 0
  | .trace count, k => traceSteps k count []
  | .fail e, k => k (.error e)
  | .panic message, _ => .panic message
  | .note e, k => look fun m => .perform (.write (.noted (e.eval m))) fun _ => k.reply .done
  | .eval e, k => look fun m => k.reply (.value (e.eval m))
  | .attempt body, k =>
    routines body fun
      | .ok () => k.reply .done
      | .error e => .perform (.write (.refused e)) fun _ => k.reply .done
  | .branch condition positive negative, k => look fun m =>
    match condition.eval m with
    | some (.flag true) => routines positive k.settle
    | _ => routines negative k.settle
  | .loop count body, k => repeated (fun after => routines body after) k count
  | .keys, k => look fun m => k.reply (.keys m.table.sortedKeys)
  | .name, k => look fun m => k.reply (.called m.name m.given.isNone)
  | .path, k => look fun m => k.reply (.keys m.history.path)
  | .records, k => look fun m => k.reply (.records m.history.records)
  | .lastRecord, k => look fun m => k.reply (.lastRecord m.history.last?)
  | .writeHistory, k => look fun m => k.reply (.history m.history)
  | .historyState, k => look fun m =>
    k.reply (.historyState m.history.limit m.history.isEnabled m.history.isEmpty)
  | .clearHistory, k => .perform .clearHistory fun _ => k.reply .done
  | .limitHistory limit, k => .perform (.limitHistory limit) fun _ => k.reply .done
  | .recordDirectly source target step, k =>
    .perform (.recordDirectly source target step) fun _ => k.reply .done
  | .describe, k => look fun m => k.reply (.machine m)
  | .call callee argument returnKey, k => look fun m =>
    .perform (.call callee (argument.eval m) returnKey) k.settle
  | .giveBack e, k => look fun m => .perform (.giveBack ((e.eval m).getD .unit)) k.settle
  | .returnEmpty, k => .perform (.move .transit (.key Key.pop)) k.settle
  | .putResult e, k => look fun m => .perform (.putResult ((e.eval m).getD .unit)) k.settle
  | .putResultAt depth e, k => look fun m =>
    .perform (.putResultAt depth ((e.eval m).getD .unit)) k.settle
  | .iterate source body next, k => look fun m =>
    .perform (.call Key.iterate (some (.iteration (source.cursor m) body)) next) k.settle
  | .setVar name e none, k => look fun m =>
    .perform (.bindVar name (some ((e.eval m).getD .unit))) k.settle
  | .setVar name e (some depth), k => look fun m =>
    .perform (.bindVarAt depth name (some ((e.eval m).getD .unit))) k.settle
  | .bind name e, k => look fun m => .perform (.bindVar name (e.eval m)) k.settle
  | .copyVar t source target, k => .perform (.copyVar t source target) k.settle
  | .unbind name depth, k =>
    .perform (.unbindVarAt depth name) fun (r : Except MachineError (Option Value)) =>
      k.answer r .value
  | .put name e, k => look fun m =>
    let v := (e.eval m).getD .unit
    .perform (.updateVar v.type name fun _ => v) fun (found : Bool) => k.reply (.flag found)
  | .push name e, k => look fun m =>
    let item := textOf (e.eval m)
    .perform (.updateVar .texts name (appended item)) fun (found : Bool) => k.reply (.flag found)
  | .frame none, k => look fun m => k.answer m.frame .frame
  | .frame (some depth), k => look fun m => k.answer (m.frameAt depth) .frame
  | .describeFrame none, k => look fun m => k.answer m.frame .frameText
  | .describeFrame (some depth), k => look fun m => k.answer (m.frameAt depth) .frameText
  | .frames, k => look fun m => k.reply (.frames m.frames)
  | .returnKeys, k => look fun m => k.reply (.keys (m.frames.map Frame.returnKey))
  | .returnKeyAt depth, k => look fun m =>
    k.reply (.key (m.frames[depth]?.map Frame.returnKey))
  | .top, k => look fun m =>
    k.reply (.top (m.frames.head?.map Frame.returnKey) m.frames.length)
  | .resetStack, k => .perform .resetStack fun _ => k.reply .done
  | .search name, k => look fun m => k.reply (.binding (Stack.search m.frames name))
  | .rebind name e, k => look fun m =>
    .perform (.rebindVar name (e.eval m)) fun (found : Bool) => k.reply (.flag found)
where
  appended (item : String) : Value → Value
    | .texts items => .texts (items ++ [item])
    | v => v

def routines : List Action → After → Program Reply
  | [], k => k (.ok ())
  | a :: rest, k => a.routine fun
    | .ok _ => routines rest k
    | .error e => k (.error e)
end

def body (actions : List Action) : Program Reply := routines actions Program.settle

def outside (a : Action) : Program Reply :=
  a.routine fun
    | .ok r => .done r
    | .error e => .fail e

end StateEngine.Script
