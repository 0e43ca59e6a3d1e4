import StateEngine.Key

/-!
# The values that frames carry

A value knows its own type, and a typed read of it answers only at that type. A cursor is the rest
of an iteration, finite or not.
-/

namespace StateEngine

mutual
inductive Value where
  | int (n : Int64)
  | word (n : UInt32)
  | text (s : String)
  | flag (b : Bool)
  | unit
  | texts (items : List String)
  /-- A value wrapped once more; it has the type `boxed`, whatever it holds. -/
  | boxed (inner : Value)
  /-- A request to iterate: what to visit, and the key to call for each element. -/
  | iteration (source : Cursor) (body : Key)
  | cursor (source : Cursor)

/-- What an iteration has left to visit. -/
inductive Cursor where
  | listed (rest : List Value)
  /-- The integers from `next` up to but not including `stop`, or without end. -/
  | range (next : Int64) (stop : Option Int64)
end

/-- The type a value is stored with. -/
inductive ValueType where
  | int | word | text | flag | unit | texts | boxed | iteration | cursor
  deriving DecidableEq

mutual
/-- Same type and same content. -/
def Value.same : Value → Value → Bool
  | .int a, .int b => a == b
  | .word a, .word b => a == b
  | .text a, .text b => a == b
  | .flag a, .flag b => a == b
  | .unit, .unit => true
  | .texts a, .texts b => a == b
  | .boxed a, .boxed b => a.same b
  | .iteration a key, .iteration b other => a.same b && key == other
  | .cursor a, .cursor b => a.same b
  | _, _ => false

def Cursor.same : Cursor → Cursor → Bool
  | .listed a, .listed b => sameAll a b
  | .range next stop, .range other last => next == other && stop == last
  | _, _ => false

def sameAll : List Value → List Value → Bool
  | [], [] => true
  | v :: rest, w :: others => v.same w && sameAll rest others
  | _, _ => false
end

mutual
theorem Value.same_iff (v w : Value) : v.same w = true ↔ v = w := by
  cases v <;> cases w <;> simp [Value.same]
  case boxed.boxed a b => exact a.same_iff b
  case iteration.iteration a key b other => simp [a.same_iff b]
  case cursor.cursor a b => exact a.same_iff b

theorem Cursor.same_iff (a b : Cursor) : a.same b = true ↔ a = b := by
  cases a <;> cases b <;> simp [Cursor.same]
  case listed.listed vs ws => exact sameAll_iff vs ws

theorem sameAll_iff (vs ws : List Value) : sameAll vs ws = true ↔ vs = ws := by
  cases vs <;> cases ws <;> simp [sameAll]
  case cons.cons v rest w others => rw [v.same_iff w, sameAll_iff rest others]
end

namespace Cursor

def next? : Cursor → Option (Value × Cursor)
  | .listed [] => none
  | .listed (v :: rest) => some (v, .listed rest)
  | .range next none => some (.int next, .range (next + 1) none)
  | .range next (some stop) =>
    if next < stop then some (.int next, .range (next + 1) (some stop)) else none

end Cursor

namespace Value

def type : Value → ValueType
  | .int _ => .int
  | .word _ => .word
  | .text _ => .text
  | .flag _ => .flag
  | .unit => .unit
  | .texts _ => .texts
  | .boxed _ => .boxed
  | .iteration .. => .iteration
  | .cursor _ => .cursor

def as? (t : ValueType) (v : Value) : Option Value := if v.type = t then some v else none

/-- Holds of the values that can be written out in full: an iteration or a cursor cannot, nor can a
box around one. -/
def isLegible : Value → Bool
  | .boxed inner => inner.isLegible
  | .iteration .. => false
  | .cursor _ => false
  | _ => true

def read? (t : ValueType) (v : Value) : Option Value :=
  if v.type = t ∧ v.isLegible then some v else none

/-- The plain text of a value, as it stands inside a longer text. -/
def plain : Value → String
  | .int n => toString n.toInt
  | .word n => toString n.toNat
  | .text s => s
  | .flag b => if b then "true" else "false"
  | .unit => "()"
  | .texts items => String.intercalate "," items
  | .boxed inner => inner.plain
  | .iteration .. => "?"
  | .cursor _ => "?"

theorem as?_eq_some_iff {t : ValueType} {v w : Value} :
    v.as? t = some w ↔ v.type = t ∧ v = w := by
  simp [as?]

end Value

end StateEngine
