import StateEngine.Machine

/-!
# Expressions of scripts

An expression looks at a machine and denotes a value or nothing; a wrong type, a missing binding,
and any question about frames on a flat machine denote nothing.
-/

namespace StateEngine.Script

inductive Arith where
  | add
  | sub
  | mul

/-- An expression. The reads of frames name the type at which they read. -/
inductive Expr where
  | nothing
  | literal (v : Value)
  | arith (op : Arith) (a b : Expr)
  | less (a b : Expr)
  | same (a b : Expr)
  | not (e : Expr)
  | joined (parts : List Expr)
  | firstOf (choices : List Expr)
  | length (e : Expr)
  | box (e : Expr)
  | currentKey
  | isDone
  | progressed
  | steps
  | hasKey (key : Key)
  | argument (t : ValueType)
  | lastResult (t : ValueType)
  | var (t : ValueType) (name : String)
  | ownResult (t : ValueType)
  | varAt (t : ValueType) (name : String) (depth : Nat)
  | hasArgument
  | isBound (name : String)
  | stackSize

namespace Arith

/-- Arithmetic on words of 64 bits, which wraps around. -/
def apply : Arith → Int64 → Int64 → Int64
  | .add, a, b => a + b
  | .sub, a, b => a - b
  | .mul, a, b => a * b

end Arith

def textOf (v : Option Value) : String := v.elim "?" Value.plain

namespace Expr

/-- An answer that only a machine with frames can give. -/
def onStack (m : Machine) (v : Option Value) : Option Value :=
  if m.kind = .stack then v else none

mutual
def eval (m : Machine) : Expr → Option Value
  | .nothing => none
  | .literal v => some v
  | .arith op a b =>
    match a.eval m, b.eval m with
    | some (.int x), some (.int y) => some (.int (op.apply x y))
    | _, _ => none
  | .less a b =>
    match a.eval m, b.eval m with
    | some (.int x), some (.int y) => some (.flag (decide (x < y)))
    | _, _ => none
  | .same a b =>
    match a.eval m, b.eval m with
    | some x, some y => some (.flag (x.same y))
    | _, _ => none
  | .not e =>
    match e.eval m with
    | some (.flag b) => some (.flag !b)
    | _ => none
  | .joined parts => some (.text (String.join (evalTexts m parts)))
  | .firstOf choices => evalFirst m choices
  | .length e =>
    match e.eval m with
    | some (.texts items) => some (.int (Int64.ofNat items.length))
    | _ => none
  | .box e => (e.eval m).map .boxed
  | .currentKey => some (.text m.current.key)
  | .isDone => some (.flag m.isDone)
  | .progressed => some (.flag m.progressed)
  | .steps => some (.int (Int64.ofNat m.steps))
  | .hasKey key => some (.flag (m.table.contains key))
  | .argument t => onStack m ((m.frames.head?.bind Frame.argument).bind (·.read? t))
  | .lastResult t => onStack m ((Stack.search m.frames Key.resultVar).join.bind (·.read? t))
  | .var t name => onStack m ((Stack.search m.frames name).join.bind (·.read? t))
  | .ownResult t => onStack m ((m.frames.head?.bind Frame.result).bind (·.read? t))
  | .varAt t name depth =>
    onStack m ((m.frames[depth]?.bind (·.binding? name)).join.bind (·.read? t))
  | .hasArgument => onStack m (m.frames.head?.map fun frame => .flag frame.argument.isSome)
  | .isBound name => onStack m (some (.flag (Stack.search m.frames name).isSome))
  | .stackSize => onStack m (some (.int (Int64.ofNat m.frames.length)))

def evalTexts (m : Machine) : List Expr → List String
  | [] => []
  | e :: rest => textOf (e.eval m) :: evalTexts m rest

def evalFirst (m : Machine) : List Expr → Option Value
  | [] => none
  | e :: rest => (e.eval m).or (evalFirst m rest)
end

end Expr

inductive Source where
  | known (source : Cursor)
  /-- The texts of a list, or the integers from zero up to an integer. -/
  | computed (e : Expr)

namespace Source

def cursor (m : Machine) : Source → Cursor
  | .known source => source
  | .computed e =>
    match e.eval m with
    | some (.texts items) => .listed (items.map .text)
    | some (.int n) => .range 0 (some n)
    | _ => .listed []

end Source

end StateEngine.Script
