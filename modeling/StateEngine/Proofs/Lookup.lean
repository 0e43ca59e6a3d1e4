import StateEngine.Proofs.Results
import StateEngine.Script.Expr

/-!
# One lookup for all variables

A name means the binding in the first frame, from the innermost on, that has one for it, be it to
nothing or to a value of the wrong type. Whatever reads a variable reads this binding, and what
writes through the search writes to this binding alone. Everything that can be done to a variable
comes down to one shape: in one place of the stack, one name is given another binding or none.
-/

namespace StateEngine

variable {ρ : Type} {name other : String}

/-- Nothing of a frame is changed but the binding of `name`, which is then `binding`. -/
structure Frame.Sets (name : String) (binding : Option (Option Value)) (before after : Frame) :
    Prop where
  here : after.binding? name = binding
  elsewhere : ∀ other, other ≠ name → after.binding? other = before.binding? other
  header : after.header = before.header
  result : after.result = before.result

namespace Frame

theorem isBound_eq_isSome (frame : Frame) (name : String) :
    frame.isBound name = (frame.binding? name).isSome := rfl

theorem isBound_eq_false_iff {frame : Frame} :
    frame.isBound name = false ↔ frame.binding? name = none := by
  rw [isBound_eq_isSome, Option.isSome_eq_false_iff, Option.isNone_iff_eq_none]

theorem Sets.bind (frame : Frame) (name : String) (value : Option Value) :
    Sets name (some value) frame (frame.bind name value) where
  here := (Table.get?_insert ..).trans (if_pos rfl)
  elsewhere _ h := binding?_bind_of_ne h frame value
  header := rfl
  result := rfl

theorem Sets.unbind (frame : Frame) (name : String) :
    Sets name none frame (frame.unbind name) where
  here := (Table.get?_erase ..).trans (if_pos rfl)
  elsewhere _ h := binding?_unbind_of_ne h frame
  header := rfl
  result := rfl

theorem Sets.rebind (frame : Frame) (name : String) (f : Option Value → Option Value) :
    Sets name ((frame.binding? name).map f) frame (frame.rebind name f) where
  here := (Table.get?_modify ..).trans (if_pos rfl)
  elsewhere _ h := (Table.get?_modify ..).trans (if_neg h)
  header := rfl
  result := rfl

/-- A frame that goes on binding the name binds the names that it bound. -/
theorem Sets.isBound_eq {before after : Frame} {value : Option Value}
    (h : Sets name (some value) before after) (hb : before.isBound name = true) (other : String) :
    after.isBound other = before.isBound other := by
  by_cases ho : other = name
  · rw [ho, hb, isBound_eq_isSome, h.here, Option.isSome_some]
  · rw [isBound_eq_isSome, isBound_eq_isSome, h.elsewhere other ho]

end Frame

namespace Stack

/-- The binding of `name` in the first frame, from the innermost on, that has any. -/
def lookup (stack : Stack) (name : String) : Option (Option Value) :=
  (stack.find? (·.isBound name)).bind (·.binding? name)

/-- The lookup finds a value of type `t`. -/
def Holds (stack : Stack) (name : String) (t : ValueType) (v : Value) : Prop :=
  lookup stack name = some (some v) ∧ v.type = t

/-- `frame` is the first one that binds `name`, `above` are the frames passed on the way to it. -/
structure Owner (stack : Stack) (name : String) (above : Stack) (frame : Frame) (below : Stack) :
    Prop where
  split : stack = above ++ frame :: below
  passed : ∀ f ∈ above, f.isBound name = false
  bound : frame.isBound name = true

theorem lookup_cons (frame : Frame) (rest : Stack) (name : String) :
    lookup (frame :: rest) name = (frame.binding? name).or (lookup rest name) := by
  rw [lookup, List.find?_cons]
  cases hb : frame.binding? name with
  | none => rw [Frame.isBound_eq_false_iff.mpr hb, Option.none_or, lookup]
  | some found =>
    have hbound : frame.isBound name = true := by rw [Frame.isBound_eq_isSome, hb]; rfl
    rw [hbound, Option.bind_some, hb, Option.some_or]

/-- The search from the innermost frame on finds the binding of the first frame that has one. -/
theorem search_eq_lookup (stack : Stack) (name : String) :
    search stack name = lookup stack name := by
  induction stack with
  | nil => rfl
  | cons frame rest ih => rw [search_cons, lookup_cons, ih]

theorem lookup_append (above below : Stack) (name : String) :
    lookup (above ++ below) name = (lookup above name).or (lookup below name) := by
  induction above with
  | nil => rfl
  | cons frame rest ih => rw [List.cons_append, lookup_cons, lookup_cons, ih, Option.or_assoc]

theorem lookup_eq_none_iff {stack : Stack} :
    lookup stack name = none ↔ ∀ frame ∈ stack, frame.isBound name = false := by
  induction stack with
  | nil => exact iff_of_true rfl nofun
  | cons frame rest ih =>
    rw [lookup_cons, Option.or_eq_none_iff, ih, List.forall_mem_cons, Frame.isBound_eq_false_iff]

theorem rebind_append_of_passed {above : Stack} (h : ∀ f ∈ above, f.isBound name = false)
    (below : Stack) (f : Option Value → Option Value) :
    rebind name f (above ++ below) = above ++ rebind name f below := by
  induction above with
  | nil => rfl
  | cons frame rest ih =>
    obtain ⟨hframe, hrest⟩ := List.forall_mem_cons.mp h
    rw [List.cons_append, rebind, hframe, if_neg (by decide), ih hrest, List.cons_append]

namespace Owner

variable {stack above below : Stack} {frame : Frame}

/-- The first frame that binds the name decides, whatever lies below it. -/
theorem lookup_eq (h : stack.Owner name above frame below) :
    lookup stack name = frame.binding? name := by
  obtain ⟨found, hfound⟩ := Option.isSome_iff_exists.mp h.bound
  have hb : frame.binding? name = some found := hfound
  rw [h.split, lookup_append, lookup_eq_none_iff.mpr h.passed, lookup_cons, hb]
  rfl

theorem of_lookup {found : Option Value} (h : lookup stack name = some found) :
    ∃ above frame below, stack.Owner name above frame below := by
  obtain ⟨frame, hframe, -⟩ := Option.bind_eq_some_iff.mp h
  obtain ⟨hbound, above, below, hsplit, hpassed⟩ := List.find?_eq_some_iff_append.mp hframe
  exact ⟨above, frame, below, hsplit, fun f hf => by simpa using hpassed f hf, hbound⟩

/-- A change through the search arrives at the owner and stops there. -/
theorem rebind_eq (h : stack.Owner name above frame below) (f : Option Value → Option Value) :
    rebind name f stack = above ++ frame.rebind name f :: below := by
  rw [h.split, rebind_append_of_passed h.passed, rebind, if_pos h.bound]

end Owner

/-- Of all frames only `frame` is written to, and there only the binding of `name`. -/
structure Writes (name : String) (binding : Option (Option Value)) (above : Stack) (frame : Frame)
    (below before after : Stack) : Prop where
  split : before = above ++ frame :: below
  written : ∃ frame', frame.Sets name binding frame' ∧ after = above ++ frame' :: below

namespace Writes

variable {binding : Option (Option Value)} {above below before after : Stack} {frame : Frame}

/-- What is written is found unless it is hidden further in; without it, what lies below shows. -/
theorem lookup_eq (h : Writes name binding above frame below before after) :
    lookup after name = (lookup above name).or (binding.or (lookup below name)) := by
  obtain ⟨frame', hsets, rfl⟩ := h.written
  rw [lookup_append, lookup_cons, hsets.here]

theorem lookup_of_ne (h : Writes name binding above frame below before after)
    (ho : other ≠ name) : lookup after other = lookup before other := by
  obtain ⟨frame', hsets, rfl⟩ := h.written
  rw [h.split, lookup_append, lookup_append, lookup_cons, lookup_cons, hsets.elsewhere other ho]

theorem length_eq (h : Writes name binding above frame below before after) :
    after.length = before.length := by
  obtain ⟨frame', -, rfl⟩ := h.written
  rw [h.split, List.length_append, List.length_append, List.length_cons, List.length_cons]

/-- Which names the frames bind stays if the frame bound the name before and goes on binding it. -/
theorem map_isBound_eq {value : Option Value}
    (h : Writes name (some value) above frame below before after)
    (hb : frame.isBound name = true) (other : String) :
    after.map (·.isBound other) = before.map (·.isBound other) := by
  obtain ⟨frame', hsets, rfl⟩ := h.written
  rw [h.split, List.map_append, List.map_append, List.map_cons, List.map_cons,
    hsets.isBound_eq hb other]

end Writes

/-- The innermost binding of `name` is now `value`, and nothing else is changed. -/
structure Overwrites (name : String) (value : Option Value) (before after : Stack) : Prop where
  place : ∃ above frame below, before.Owner name above frame below ∧
    Writes name (some value) above frame below before after
  found : search after name = some value
  others : ∀ other, other ≠ name → search after other = search before other
  names : ∀ other, after.map (·.isBound other) = before.map (·.isBound other)
  height : after.length = before.length

/-- The innermost frame, and no other, binds `name` to `value`. -/
structure BindsOnTop (name : String) (value : Option Value) (before after : Stack) : Prop where
  place : ∃ top rest, Writes name (some value) [] top rest before after
  found : lookup after name = some value
  others : ∀ other, other ≠ name → lookup after other = lookup before other
  height : after.length = before.length

/-- The frame `depth` calls further out than the innermost, and no other, has lost its binding of
`name`, which was to `removed` if there was one. The lookup goes through this frame to the next one
that binds the name. -/
structure Unbinds (depth : Nat) (name : String) (removed : Option Value) (before after : Stack) :
    Prop where
  place : ∃ above frame below, above.length = depth ∧ (frame.binding? name).join = removed ∧
    Writes name none above frame below before after ∧
    lookup after name = (lookup above name).or (lookup below name)
  others : ∀ other, other ≠ name → lookup after other = lookup before other
  height : after.length = before.length

theorem overwrites_rebind {stack : Stack} {found : Option Value}
    (h : lookup stack name = some found) (f : Option Value → Option Value) :
    Overwrites name (f found) stack (rebind name f stack) := by
  obtain ⟨above, frame, below, owner⟩ := Owner.of_lookup h
  have hb : frame.binding? name = some found := owner.lookup_eq ▸ h
  have hsets : frame.Sets name (some (f found)) (frame.rebind name f) := by
    simpa [hb] using Frame.Sets.rebind frame name f
  have writes : Writes name (some (f found)) above frame below stack (rebind name f stack) :=
    ⟨owner.split, _, hsets, owner.rebind_eq f⟩
  refine ⟨⟨above, frame, below, owner, writes⟩, ?_, fun _ ho => search_rebind_of_ne ho stack f,
    writes.map_isBound_eq owner.bound, writes.length_eq⟩
  rw [search_rebind, search_eq_lookup, h, Option.map_some]

theorem bindsOnTop_bind (top : Frame) (rest : Stack) (name : String) (value : Option Value) :
    BindsOnTop name value (top :: rest) (top.bind name value :: rest) := by
  have writes : Writes name (some value) [] top rest (top :: rest) (top.bind name value :: rest) :=
    ⟨rfl, _, .bind top name value, rfl⟩
  exact ⟨⟨top, rest, writes⟩, writes.lookup_eq, fun _ => writes.lookup_of_ne, writes.length_eq⟩

theorem unbinds_set {stack : Stack} {depth : Nat} {frame : Frame}
    (hd : stack[depth]? = some frame) (name : String) :
    Unbinds depth name (frame.binding? name).join stack
      (stack.set depth (frame.unbind name)) := by
  obtain ⟨hlt, hframe⟩ := List.getElem?_eq_some_iff.mp hd
  have hsplit : stack = stack.take depth ++ frame :: stack.drop (depth + 1) := by
    rw [← hframe, List.getElem_cons_drop, List.take_append_drop]
  have writes : Writes name none (stack.take depth) frame (stack.drop (depth + 1)) stack
      (stack.set depth (frame.unbind name)) :=
    ⟨hsplit, _, .unbind frame name, List.set_eq_take_append_cons_drop.trans (if_pos hlt)⟩
  exact ⟨⟨_, frame, _, List.length_take_of_le (Nat.le_of_lt hlt), rfl, writes, writes.lookup_eq⟩,
    fun _ => writes.lookup_of_ne, writes.length_eq⟩

end Stack

/-- Every read of `name` is one of the binding that the lookup finds. -/
structure Machine.Reads (m : Machine) (name : String) : Prop where
  search : Stack.search m.frames name = Stack.lookup m.frames name
  bound : (Script.Expr.isBound name).eval m =
    Script.Expr.onStack m (some (.flag (Stack.lookup m.frames name).isSome))
  typed : ∀ t v, m.var? t name = some v ↔ Stack.Holds m.frames name t v
  legible : ∀ t, (Script.Expr.var t name).eval m =
    Script.Expr.onStack m ((m.var? t name).filter Value.isLegible)
  /-- A binding to nothing or to another type hides all that lies further out. -/
  hides : ∀ t above frame below, m.frames.Owner name above frame below →
    (∀ v, frame.binding? name = some (some v) → v.type ≠ t) → m.var? t name = none

theorem Value.read?_eq_filter (t : ValueType) (v : Value) :
    v.read? t = (v.as? t).filter isLegible := by
  unfold read? as?
  by_cases ht : v.type = t <;> by_cases hl : v.isLegible <;>
    simp [ht, hl, Option.filter]

namespace Machine

theorem var?_eq_some_iff {m : Machine} {t : ValueType} {v : Value} :
    m.var? t name = some v ↔ Stack.Holds m.frames name t v := by
  rw [var?, Stack.var?, Stack.search_eq_lookup, Option.bind_eq_some_iff, Stack.Holds]
  constructor
  · rintro ⟨w, hw, has⟩
    obtain ⟨ht, rfl⟩ := Value.as?_eq_some_iff.mp has
    exact ⟨Option.join_eq_some_iff.mp hw, ht⟩
  · rintro ⟨hfound, ht⟩
    exact ⟨v, Option.join_eq_some_iff.mpr hfound, Value.as?_eq_some_iff.mpr ⟨ht, rfl⟩⟩

theorem var?_eq_none_iff {m : Machine} {t : ValueType} :
    m.var? t name = none ↔ ∀ v, ¬ Stack.Holds m.frames name t v := by
  simp only [Option.eq_none_iff_forall_ne_some, ne_eq, var?_eq_some_iff]

theorem reads_lookup (m : Machine) (name : String) : m.Reads name where
  search := Stack.search_eq_lookup m.frames name
  bound := by rw [Script.Expr.eval, Stack.search_eq_lookup]
  typed _ _ := var?_eq_some_iff
  legible t := by
    rw [Script.Expr.eval, var?, Stack.var?]
    cases (Stack.search m.frames name).join with
    | none => rfl
    | some v => rw [Option.bind_some, Option.bind_some, Value.read?_eq_filter]
  hides t above frame below owner hother := var?_eq_none_iff.mpr fun v holds =>
    hother v (owner.lookup_eq ▸ holds.1) holds.2

end Machine

namespace Site

theorem rebindVar_cases (s : Site ρ) (name : String) (value : Option Value) :
    (Stack.lookup s.machine.frames name = none ∧ s.rebindVar name value = (false, s)) ∨
    ∃ after, s.rebindVar name value = (true, s.withFrames after) ∧
      Stack.Overwrites name value s.machine.frames after := by
  rw [rebindVar, Stack.search_eq_lookup]
  cases hl : Stack.lookup s.machine.frames name with
  | none => exact .inl ⟨rfl, rfl⟩
  | some found => exact .inr ⟨_, rfl, Stack.overwrites_rebind hl fun _ => value⟩

theorem updateVar_cases (s : Site ρ) (t : ValueType) (name : String) (f : Value → Value) :
    ((∀ v, ¬ Stack.Holds s.machine.frames name t v) ∧ s.updateVar t name f = (false, s)) ∨
    ∃ v after, Stack.Holds s.machine.frames name t v ∧
      s.updateVar t name f = (true, s.withFrames after) ∧
      Stack.Overwrites name (some (f v)) s.machine.frames after := by
  rw [updateVar]
  cases hv : s.machine.var? t name with
  | none => exact .inl ⟨Machine.var?_eq_none_iff.mp hv, rfl⟩
  | some v =>
    have holds := Machine.var?_eq_some_iff.mp hv
    exact .inr ⟨v, _, holds, rfl, Stack.overwrites_rebind holds.1 (·.map f)⟩

/-- The innermost frame is there to be written to unless there is none at all. -/
theorem bind_cases (s : Site ρ) (name : String) (value : Option Value) :
    (s.machine.frames = [] ∧
      s.settle (s.onTop fun frame => .ok (frame.bind name value)) = (.error .emptyStack, s)) ∨
    ∃ after,
      s.settle (s.onTop fun frame => .ok (frame.bind name value)) =
        (.ok (), s.withFrames after) ∧
      Stack.BindsOnTop name value s.machine.frames after := by
  rw [onTop]
  cases s.machine.frames with
  | nil => exact .inl ⟨rfl, rfl⟩
  | cons top rest => exact .inr ⟨_, rfl, Stack.bindsOnTop_bind top rest name value⟩

theorem copyVar_cases (s : Site ρ) (t : ValueType) (source target : String) :
    ((∀ v, ¬ Stack.Holds s.machine.frames source t v) ∧
      s.settle (s.copyVar t source target) = (.error (.unboundVar source), s)) ∨
    ∃ v after, Stack.Holds s.machine.frames source t v ∧
      s.settle (s.copyVar t source target) = (.ok (), s.withFrames after) ∧
      Stack.BindsOnTop target (some v) s.machine.frames after := by
  rw [copyVar]
  cases hv : s.machine.var? t source with
  | none => exact .inl ⟨Machine.var?_eq_none_iff.mp hv, rfl⟩
  | some v =>
    have holds := Machine.var?_eq_some_iff.mp hv
    rcases s.bind_cases target (some v) with ⟨hempty, -⟩ | ⟨after, hanswer, binds⟩
    · -- What was found stands in some frame.
      rw [hempty] at holds
      cases holds.1
    · exact .inr ⟨v, after, holds, hanswer, binds⟩

theorem unbindVarAt_cases (s : Site ρ) (depth : Nat) (name : String) :
    (s.machine.frames.length ≤ depth ∧ s.unbindVarAt depth name =
      (.error (.frameOutOfRange depth s.machine.frames.length), s)) ∨
    ∃ removed after, s.unbindVarAt depth name = (.ok removed, s.withFrames after) ∧
      Stack.Unbinds depth name removed s.machine.frames after := by
  rw [unbindVarAt, Machine.frameAt]
  cases hd : s.machine.frames[depth]? with
  | none => exact .inl ⟨List.getElem?_eq_none_iff.mp hd, rfl⟩
  | some frame => exact .inr ⟨_, _, rfl, Stack.unbinds_set hd name⟩

/-- Whatever is done to variables agrees on one lookup. Reads tell what it finds, an overwriting
request changes what it finds and nothing else, or is refused where it finds nothing to change. A
new binding goes to the innermost frame and is found from then on. A frame that loses its binding
lets the lookup through. -/
theorem accesses_share_one_lookup (s : Site ρ) (name : String) :
    s.machine.Reads name ∧
    (∀ t v, s.machine.result? t = some v ↔ Stack.Holds s.machine.frames Key.resultVar t v) ∧
    (∀ value,
      (Stack.lookup s.machine.frames name = none ∧
        s.answer (.rebindVar name value) = (false, s)) ∨
      ∃ after, s.answer (.rebindVar name value) = (true, s.withFrames after) ∧
        Stack.Overwrites name value s.machine.frames after) ∧
    (∀ t f,
      ((∀ v, ¬ Stack.Holds s.machine.frames name t v) ∧
        s.answer (.updateVar t name f) = (false, s)) ∨
      ∃ v after, Stack.Holds s.machine.frames name t v ∧
        s.answer (.updateVar t name f) = (true, s.withFrames after) ∧
        Stack.Overwrites name (some (f v)) s.machine.frames after) ∧
    (∀ value,
      (s.machine.frames = [] ∧ s.answer (.bindVar name value) = (.error .emptyStack, s)) ∨
      ∃ after, s.answer (.bindVar name value) = (.ok (), s.withFrames after) ∧
        Stack.BindsOnTop name value s.machine.frames after) ∧
    (∀ t source,
      ((∀ v, ¬ Stack.Holds s.machine.frames source t v) ∧
        s.answer (.copyVar t source name) = (.error (.unboundVar source), s)) ∨
      ∃ v after, Stack.Holds s.machine.frames source t v ∧
        s.answer (.copyVar t source name) = (.ok (), s.withFrames after) ∧
        Stack.BindsOnTop name (some v) s.machine.frames after) ∧
    ∀ depth,
      (s.machine.frames.length ≤ depth ∧ s.answer (.unbindVarAt depth name) =
        (.error (.frameOutOfRange depth s.machine.frames.length), s)) ∨
      ∃ removed after, s.answer (.unbindVarAt depth name) = (.ok removed, s.withFrames after) ∧
        Stack.Unbinds depth name removed s.machine.frames after :=
  ⟨s.machine.reads_lookup name, fun _ _ => Machine.var?_eq_some_iff, s.rebindVar_cases name,
    fun t f => s.updateVar_cases t name f, s.bind_cases name,
    fun t source => s.copyVar_cases t source name, fun depth => s.unbindVarAt_cases depth name⟩

/-- A binding to nothing hides the number further out, and it is what a write arrives at. -/
theorem accesses_share_one_lookup_of_hidden :
    ∃ (s : Site Unit) (after : Stack),
      (∃ frame ∈ s.machine.frames, frame.var? .int "x" = some (.int 1)) ∧
      s.machine.var? .int "x" = none ∧
      s.answer (.rebindVar "x" (some (.int 2))) = (true, s.withFrames after) ∧
      Stack.Overwrites "x" (some (.int 2)) s.machine.frames after := by
  let outer : Frame := Stack.sentinel.bind "x" (some (.int 1))
  let hider : Frame := (Frame.opened "Caller" none).bind "x" none
  let top : Frame := .opened "Inner" none
  let s : Site Unit := (Site.fresh .stack).withFrames [top, hider, outer]
  have owner : s.machine.frames.Owner "x" [top] hider [outer] :=
    ⟨rfl, List.forall_mem_singleton.mpr rfl, rfl⟩
  obtain ⟨reads, -, hoverwrites, -⟩ := s.accesses_share_one_lookup "x"
  obtain ⟨hnone, -⟩ | ⟨after, hanswer, overwrites⟩ := hoverwrites (some (.int 2))
  · rw [owner.lookup_eq] at hnone
    cases hnone
  · have hhidden : s.machine.var? .int "x" = none := reads.hides .int _ _ _ owner nofun
    exact ⟨s, after, ⟨outer, by simp [s], rfl⟩, hhidden, hanswer, overwrites⟩

end Site

end StateEngine
