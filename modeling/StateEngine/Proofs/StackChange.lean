import Mathlib.Data.List.Forall2
import StateEngine.Builtin
import StateEngine.Proofs.Entering

/-!
# What can happen to a stack of frames

Frames come and go at the inner end only, and a frame that stays keeps what it was called with and
the result once it is written. `Stack.Change` says this for everything that a machine does in one
go, and names what came or went.
-/

namespace StateEngine

variable {ρ : Type}

/-- What a frame was called with. -/
def Frame.header (frame : Frame) : Key × Option Value := (frame.returnKey, frame.argument)

/-- What stays of a frame while frames are written to. -/
structure Frame.Persists (before after : Frame) : Prop where
  header : after.header = before.header
  result : ∀ v, before.result = some v → after.result = some v

namespace Frame.Persists

theorem refl (frame : Frame) : frame.Persists frame := ⟨rfl, fun _ h => h⟩

theorem returnKey {f g : Frame} (h : f.Persists g) : g.returnKey = f.returnKey :=
  congrArg Prod.fst h.header

theorem argument {f g : Frame} (h : f.Persists g) : g.argument = f.argument :=
  congrArg Prod.snd h.header

theorem bind (frame : Frame) (name : String) (value : Option Value) :
    frame.Persists (frame.bind name value) := ⟨rfl, fun _ h => h⟩

theorem unbind (frame : Frame) (name : String) : frame.Persists (frame.unbind name) :=
  ⟨rfl, fun _ h => h⟩

theorem rebind (frame : Frame) (name : String) (f : Option Value → Option Value) :
    frame.Persists (frame.rebind name f) := ⟨rfl, fun _ h => h⟩

theorem writeResult {frame after : Frame} {value : Value}
    (h : Site.writeResult value frame = .ok after) : frame.Persists after := by
  unfold Site.writeResult Frame.putResult? at h
  cases hr : frame.result with
  | some v => simp [hr] at h
  | none =>
    simp only [hr, Option.isSome_none, Bool.false_eq_true, if_false, Except.ok.injEq] at h
    subst h
    exact ⟨rfl, fun v hv => by rw [hr] at hv; cases hv⟩

end Frame.Persists

theorem Frame.binding?_bind_of_ne {name other : String} (h : name ≠ other) (frame : Frame)
    (value : Option Value) : (frame.bind other value).binding? name = frame.binding? name := by
  rw [binding?, bind, Table.get?_insert, if_neg h, binding?]

/-- What came to a stack or went from it. -/
inductive StackEvent where
  | opened (returnKey : Key) (argument : Option Value)
  | closed
  | renewed

namespace Stack

/-- The same frames, possibly written to. -/
def Touched (before after : Stack) : Prop := List.Forall₂ Frame.Persists before after

theorem Touched.refl (stack : Stack) : Touched stack stack :=
  List.forall₂_same.mpr fun frame _ => Frame.Persists.refl frame

theorem touched_top {top after : Frame} (h : top.Persists after) (rest : Stack) :
    Touched (top :: rest) (after :: rest) := .cons h (Touched.refl rest)

theorem touched_set {stack : Stack} {depth : Nat} {frame after : Frame}
    (hf : stack[depth]? = some frame) (h : frame.Persists after) :
    Touched stack (stack.set depth after) := by
  induction stack generalizing depth with
  | nil => simp at hf
  | cons top rest ih =>
    cases depth with
    | zero =>
      obtain rfl : top = frame := by simpa using hf
      exact touched_top h rest
    | succ depth => exact .cons (.refl top) (ih (by simpa using hf))

theorem touched_rebind (stack : Stack) (name : String) (f : Option Value → Option Value) :
    Touched stack (rebind name f stack) := by
  induction stack with
  | nil => exact .nil
  | cons top rest ih =>
    rw [rebind]
    split
    · exact touched_top (.rebind top name f) rest
    · exact .cons (.refl top) ih

theorem Touched.map_returnKey {before after : Stack} (h : Touched before after) :
    after.map Frame.returnKey = before.map Frame.returnKey := by
  induction h with
  | nil => rfl
  | cons hp _ ih => rw [List.map_cons, List.map_cons, hp.returnKey, ih]

theorem Touched.head?_header {before after : Stack} (h : Touched before after) :
    after.head?.map Frame.header = before.head?.map Frame.header := by
  cases h with
  | nil => rfl
  | cons hp _ => exact congrArg some hp.header

theorem search_opened (returnKey : Key) (argument : Option Value) (rest : Stack) (name : String) :
    search (.opened returnKey argument :: rest) name = search rest name := by
  rw [search_cons]
  rfl

theorem search_top {top after : Frame} {name : String}
    (h : after.binding? name = top.binding? name) (rest : Stack) :
    search (after :: rest) name = search (top :: rest) name := by
  rw [search_cons, search_cons, h]

/-- A change through the search leaves all other names alone. -/
theorem search_rebind_of_ne {name other : String} (h : other ≠ name) (stack : Stack)
    (f : Option Value → Option Value) : search (rebind name f stack) other = search stack other := by
  induction stack with
  | nil => rfl
  | cons frame rest ih =>
    rw [rebind, search_cons]
    split
    · rw [search_cons, Frame.binding?, Frame.rebind, Table.get?_modify, if_neg h]
      rfl
    · rw [search_cons, ih]

/-- What a machine may do to its stack in one go. -/
inductive Change : Option StackEvent → Stack → Stack → Prop where
  | kept {before after : Stack} : Touched before after → Change none before after
  /-- The argument of the innermost frame is taken. -/
  | taken {top after : Frame} {rest : Stack} : after.returnKey = top.returnKey →
      after.argument = none → after.result = top.result →
      Change none (top :: rest) (after :: rest)
  | opened {before after : Stack} {returnKey : Key} {argument : Option Value} :
      Touched before after →
      Change (some (.opened returnKey argument)) before (Frame.opened returnKey argument :: after)
  | closed {top : Frame} {rest after : Stack} : Touched rest after →
      Change (some .closed) (top :: rest) after
  | renewed {before : Stack} : Change (some .renewed) before Stack.initial

theorem Change.refl (stack : Stack) : Change none stack stack := .kept (.refl stack)

/-- How high a stack is after an event. -/
def heightAfter (height : Nat) : Option StackEvent → Nat
  | none => height
  | some (.opened ..) => height + 1
  | some .closed => height - 1
  | some .renewed => 1

theorem Change.length_eq {event : Option StackEvent} {before after : Stack}
    (h : Change event before after) : after.length = heightAfter before.length event := by
  cases h with
  | kept ht => exact ht.length_eq.symm
  | taken => rfl
  | opened ht => exact congrArg (· + 1) ht.length_eq.symm
  | closed ht => exact ht.length_eq.symm
  | renewed => rfl

/-- Where the `n` outermost frames return to, the outermost first. -/
def floor (n : Nat) (stack : Stack) : List Key := (stack.map Frame.returnKey).reverse.take n

theorem floor_of_length_le {n : Nat} {stack : Stack} (h : stack.length ≤ n) :
    floor n stack = (stack.map Frame.returnKey).reverse :=
  List.take_of_length_le (by simpa using h)

theorem floor_cons {n : Nat} {rest : Stack} (h : n ≤ rest.length) (top : Frame) :
    floor n (top :: rest) = floor n rest := by
  unfold floor
  rw [List.map_cons, List.reverse_cons, List.take_append_of_le_length]
  simpa using h

/-- Frames that are never reached stay, unless the whole stack goes. -/
theorem Change.floor_eq {event : Option StackEvent} {before after : Stack} {n : Nat}
    (h : Change event before after) (hb : n ≤ before.length) (ha : n ≤ after.length) (hn : 1 < n) :
    floor n after = floor n before := by
  have htouched : ∀ {a b : Stack}, Touched a b → floor n b = floor n a := by
    intro a b ht
    rw [floor, floor, ht.map_returnKey]
  cases h with
  | kept ht => exact htouched ht
  | taken hr => rw [floor, floor, List.map_cons, List.map_cons, hr]
  | opened ht =>
    rw [floor_cons (ht.length_eq ▸ hb), htouched ht]
  | closed ht => rw [floor_cons (ht.length_eq ▸ ha), htouched ht]
  | renewed => exact absurd (Nat.lt_of_lt_of_le hn ha) (Nat.lt_irrefl 1)

end Stack

namespace Builtin

/-- The call that `ITERATE1` is about to make: the next element and the key to call with it. -/
def nextCall? (frames : Stack) : Option (Value × Key) :=
  match source? frames, body? frames with
  | some source, some body => source.next?.map fun taken => (taken.1, body)
  | _, _ => none

/-- What the activation of a state does to the stack. A routine does nothing by being entered. -/
def stackEvent (s : Site ρ) : Behaviour ρ → Option StackEvent
  | .pop => if s.machine.frames = [] then none else some .closed
  | .iterateNext =>
    match nextCall? s.machine.frames with
    | some (element, body) =>
      if s.machine.table.contains body then some (.opened Key.iterateNext (some element)) else none
    | none => none
  | _ => none

theorem body?_rebind_source (frames : Stack) (f : Option Value → Option Value) :
    body? (Stack.rebind Key.sourceVar f frames) = body? frames := by
  unfold body?
  rw [Stack.search_rebind_of_ne (by decide)]

end Builtin

end StateEngine
