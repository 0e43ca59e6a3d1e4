import Mathlib.Tactic.IntervalCases
import StateEngine.Proofs.Driving

/-!
# Iterations

An iteration keeps its cursor in the frame that `ITERATE` has turned into the frame of the loop. Each
time `ITERATE1` finds that frame on top it calls the body with one element more, and when the body
has returned the frame is as it was but for the result. After the last element the frame is left.
-/

namespace StateEngine

variable {ρ : Type}

/-- The values that a cursor hands out before it is exhausted. -/
inductive Cursor.Yields : Cursor → List Value → Prop where
  | done {c : Cursor} : c.next? = none → Yields c []
  | next {c rest : Cursor} {v : Value} {vs : List Value} : c.next? = some (v, rest) →
      Yields rest vs → Yields c (v :: vs)

theorem Cursor.yields_listed (vs : List Value) : (Cursor.listed vs).Yields vs := by
  induction vs with
  | nil => exact .done rfl
  | cons v vs ih => exact .next rfl ih

/-- The frame of a loop that has `cursor` left to visit. -/
structure Frame.Loops (frame : Frame) (cursor : Cursor) (body next : Key) : Prop where
  source : frame.binding? Key.sourceVar = some (some (.cursor cursor))
  callee : frame.binding? Key.bodyVar = some (some (.text body))
  returnKey : frame.returnKey = next
  result : frame.result = none

namespace Frame.Loops

variable {frame : Frame} {cursor : Cursor} {body next : Key}

theorem source? (h : frame.Loops cursor body next) (rest : Stack) :
    Builtin.source? (frame :: rest) = some cursor := by
  rw [Builtin.source?, Stack.search_cons, h.source]
  rfl

theorem body? (h : frame.Loops cursor body next) (rest : Stack) :
    Builtin.body? (frame :: rest) = some body := by
  rw [Builtin.body?, Stack.search_cons, h.callee]
  rfl

theorem advance (h : frame.Loops cursor body next) (after : Cursor) :
    (frame.rebind Key.sourceVar fun _ => some (.cursor after)).Loops after body next where
  source := by
    rw [Frame.binding?, Frame.rebind, Table.get?_modify, if_pos rfl]
    exact congrArg (Option.map _) h.source
  callee := by
    rw [Frame.binding?, Frame.rebind, Table.get?_modify, if_neg (by decide)]
    exact h.callee
  returnKey := h.returnKey
  result := h.result

theorem rebind_source (h : frame.Loops cursor body next) (rest : Stack)
    (f : Option Value → Option Value) :
    Stack.rebind Key.sourceVar f (frame :: rest) = frame.rebind Key.sourceVar f :: rest := by
  have hbound : frame.isBound Key.sourceVar = true := by
    rw [Frame.isBound, Table.contains]
    exact congrArg Option.isSome h.source
  rw [Stack.rebind, if_pos hbound]

/-- The loop does not see what its calls return. -/
theorem bind_result (h : frame.Loops cursor body next) (value : Option Value) :
    (frame.bind Key.resultVar value).Loops cursor body next where
  source := (Frame.binding?_bind_of_ne (by decide) frame value).trans h.source
  callee := (Frame.binding?_bind_of_ne (by decide) frame value).trans h.callee
  returnKey := h.returnKey
  result := h.result

end Frame.Loops

namespace Builtin

/-- What becomes of the frame that asks for an iteration. -/
def loopFrame (top : Frame) (source : Cursor) (body : Key) : Frame :=
  (({ top with argument := none } : Frame).bind Key.sourceVar (some (.cursor source))).bind
    Key.bodyVar (some (.text body))

theorem loopFrame_loops (source : Cursor) (body next : Key) (argument : Option Value) :
    (loopFrame (.opened next argument) source body).Loops source body next where
  source := by
    rw [loopFrame, Frame.binding?, Frame.bind, Table.get?_insert, if_neg (by decide), Frame.bind,
      Table.get?_insert, if_pos rfl]
  callee := by rw [loopFrame, Frame.binding?, Frame.bind, Table.get?_insert, if_pos rfl]
  returnKey := rfl
  result := rfl

theorem iterate_of_iteration {s : Site ρ} {top : Frame} {rest : Stack} {source : Cursor}
    {body : Key} (hf : s.machine.frames = top :: rest)
    (ha : top.argument = some (.iteration source body)) :
    iterate s = (s.withFrames (loopFrame top source body :: rest)).settle
      ((s.withFrames (loopFrame top source body :: rest)).transitTo Key.iterateNext) := by
  simp only [iterate, hf, ha]
  rfl

/-- With an element left, and a body that can be entered, `ITERATE1` calls the body. -/
theorem iterateNext_of_listed {s : Site ρ} (sound : s.Sound) (hp : s.machine.progressed = false)
    {cursor after : Cursor} {v : Value} {body : Key} {g : Handle}
    (hs : source? s.machine.frames = some cursor) (hc : cursor.next? = some (v, after))
    (hb : body? s.machine.frames = some body) (hg : s.machine.table.get? body = some g)
    (hne : body ≠ Key.error) :
    iterateNext s = (.ok (), (s.withFrames (.opened Key.iterateNext (some v) ::
      Stack.rebind Key.sourceVar (fun _ => some (.cursor after)) s.machine.frames)).entered
        .transit g) := by
  rw [iterateNext_of_next hs hc hb]
  exact (sound.withFrames (Stack.rebind _ _ s.machine.frames)).call_eq hp hg hne _ _

end Builtin

namespace Execution

variable [Inhabited ρ] {m : Nat → Execution ρ} {height : Nat} {body next : Key}

/-- What an iteration needs of its surroundings. -/
structure Supports (m : Nat → Execution ρ) (body next : Key) : Prop where
  drives : Drives m
  sound : ∀ i, (m i).site.Sound
  keeps : ∀ i, (m i).site.KeepsBuiltins
  body_listed : ∀ i, ∃ h, (m i).site.machine.table.get? body = some h
  next_listed : ∀ i, ∃ h, (m i).site.machine.table.get? next = some h
  body_ne : body ≠ Key.error
  next_ne : next ≠ Key.error

/-- When `ITERATE1` finds an element and a body that can be entered, the body is entered in a frame of
its own. -/
theorem Drives.enters_body (drives : Drives m) {i : Nat} (sound : (m i).site.Sound)
    (poised : (m i).Poised) (active : (m i).activated? = some .iterateNext)
    {cursor after : Cursor} {v : Value}
    (hs : Builtin.source? (m i).site.machine.frames = some cursor)
    (hc : cursor.next? = some (v, after))
    (hb : Builtin.body? (m i).site.machine.frames = some body)
    (hlisted : ∃ g, (m i).site.machine.table.get? body = some g) (hne : body ≠ Key.error) :
    (m (i + 1)).site.machine.current.key = body ∧
      (m (i + 1)).site.machine.progressed = true ∧
      (m (i + 1)).site.machine.frames = .opened Key.iterateNext (some v) ::
        Stack.rebind Key.sourceVar (fun _ => some (.cursor after))
          (m i).site.machine.frames := by
  obtain ⟨g, hg⟩ := hlisted
  have hstep := Builtin.iterateNext_of_listed sound.begun rfl hs hc hb hg hne
  obtain ⟨-, hmachine, -⟩ := drives.after_builtin poised active rfl hstep
  rw [hmachine]
  exact ⟨(sound.lists body g hg).1, rfl, rfl⟩

/-- A moment at which the loop goes on, with `height` frames below the frame of the loop. -/
structure AtHead (e : Execution ρ) (height : Nat) (cursor : Cursor) (body next : Key) : Prop where
  poised : e.Poised
  active : e.activated? = some .iterateNext
  frames : ∃ frame rest, e.site.machine.frames = frame :: rest ∧ rest.length = height ∧
    frame.Loops cursor body next

/-- From the moment `i` on the machine goes through `ITERATE1` and `POP` to the state `next`, with
the frame of the loop gone and nothing returned to the frame below. -/
structure Leaves (m : Nat → Execution ρ) (height : Nat) (next : Key) (i : Nat) : Prop where
  head_poised : (m i).Poised
  head_active : (m i).activated? = some .iterateNext
  head_height : (m i).site.machine.frames.length = height + 1
  not_resumed : (m (i + 1)).activated? = none
  kept_height : (m (i + 1)).site.machine.frames.length = height + 1
  pop_poised : (m (i + 2)).Poised
  pop_active : (m (i + 2)).activated? = some .pop
  pop_height : (m (i + 2)).site.machine.frames.length = height + 1
  current : (m (i + 3)).site.machine.current.key = next
  progressed : (m (i + 3)).site.machine.progressed = true
  height_eq : (m (i + 3)).site.machine.frames.length = height
  nothing_returned : ∃ caller below, (m (i + 3)).site.machine.frames = caller :: below ∧
    caller.binding? Key.resultVar = some none

namespace AtHead

variable {i : Nat} {cursor after : Cursor} {v : Value}

theorem height_eq {e : Execution ρ} (head : e.AtHead height cursor body next) :
    e.site.machine.frames.length = height + 1 := by
  obtain ⟨frame, rest, hframes, hlength, -⟩ := head.frames
  rw [hframes, List.length_cons, hlength]

/-- With an element left the body is entered in a frame of its own. -/
theorem enters_body (head : (m i).AtHead height cursor body next) (supports : Supports m body next)
    (hc : cursor.next? = some (v, after)) :
    (m (i + 1)).site.machine.current.key = body ∧
      (m (i + 1)).site.machine.progressed = true ∧
      ∃ frame rest,
        (m (i + 1)).site.machine.frames = .opened Key.iterateNext (some v) :: frame :: rest ∧
          rest.length = height ∧ frame.Loops after body next := by
  obtain ⟨frame, rest, hframes, hlength, hloops⟩ := head.frames
  obtain ⟨hcurrent, hprogressed, hframes'⟩ := supports.drives.enters_body (supports.sound i)
    head.poised head.active (hframes ▸ hloops.source? rest) hc (hframes ▸ hloops.body? rest)
    (supports.body_listed i) supports.body_ne
  rw [hframes, hloops.rebind_source] at hframes'
  exact ⟨hcurrent, hprogressed, _, rest, hframes', hlength, hloops.advance after⟩

/-- With no element left the machine goes through `POP` to where the iteration was asked to go
on. -/
theorem leaves (head : (m i).AtHead height cursor body next) (supports : Supports m body next)
    (hc : cursor.next? = none) (hpos : 0 < height) :
    Leaves m height next i := by
  obtain ⟨frame, rest, hframes, hlength, hloops⟩ := head.frames
  obtain ⟨g, hg, hpop⟩ := (supports.keeps i).pop
  have hbegun : (m i).site.begun.machine.frames = frame :: rest := hframes
  have hstep : Builtin.iterateNext (m i).site.begun =
      (.ok (), ((m i).site.begun.withFrames (frame :: rest)).entered .transit g) := by
    rw [Builtin.iterateNext_of_exhausted (hbegun ▸ hloops.source? rest) hc, ← hbegun]
    exact (supports.sound i).begun.settle_transitTo rfl hg (by decide)
  obtain ⟨hnone, hframes₁, hpoised, hactive, hframes₂⟩ :=
    supports.drives.into_builtin supports.sound head.poised head.active rfl hstep hpop rfl
  obtain ⟨g', hg'⟩ := supports.next_listed (i + 2)
  obtain ⟨caller, below, rfl⟩ := List.exists_cons_of_length_pos (hlength ▸ hpos)
  have hreturn : Builtin.pop (m (i + 2)).site.begun =
      (.ok (), ((m (i + 2)).site.begun.withFrames
        (caller.bind Key.resultVar none :: below)).entered .transit g') := by
    have hlisted : (m (i + 2)).site.begun.machine.table.get? frame.returnKey = some g' :=
      hloops.returnKey ▸ hg'
    have hne : frame.returnKey ≠ Key.error := hloops.returnKey ▸ supports.next_ne
    rw [Builtin.pop_of_listed (supports.sound (i + 2)).begun rfl hframes₂ hlisted hne,
      hloops.result]
    rfl
  obtain ⟨-, hmachine, -⟩ := supports.drives.after_builtin hpoised hactive rfl hreturn
  refine ⟨head.poised, head.active, head.height_eq, hnone,
    by rw [hframes₁, List.length_cons, hlength], hpoised, hactive,
    by rw [hframes₂, List.length_cons, hlength], ?_, by rw [hmachine]; rfl, ?_,
    caller.bind Key.resultVar none, below, by rw [hmachine]; rfl, ?_⟩
  · rw [hmachine]
    exact ((supports.sound (i + 2)).lists next g' hg').1
  · rw [hmachine]
    exact hlength
  · rw [Frame.binding?, Frame.bind, Table.get?_insert, if_pos rfl]

end AtHead

/-- A run from the moment `i` comes to where the call that was made then returns: nothing was taken
from below its frame, the caller is as it was, and no return has failed. -/
structure ComesBack (m : Nat → Execution ρ) (height i j : Nat) : Prop where
  later : i < j
  poised : (m j).Poised
  current : (m j).site.currentBehaviour = .pop
  height_eq : (m j).site.machine.frames.length = height
  above : ∀ k, i < k → k ≤ j → height ≤ (m k).site.machine.frames.length
  caller : (m j).site.machine.frames[1]? = (m (i + 1)).site.machine.frames[1]?
  no_failure : ∀ k, i < k → k < j → (m k).activated? = some .pop → (m k).popOutcome = .ok ()

/-- A run from the moment `i` comes to where the call that was made then returns: nothing was taken
from below its frame, and no return has failed. -/
structure Returns (m : Nat → Execution ρ) (height i j : Nat) : Prop where
  later : i < j
  poised : (m j).Poised
  current : (m j).site.currentBehaviour = .pop
  height_eq : (m j).site.machine.frames.length = height
  above : ∀ k, i < k → k ≤ j → height ≤ (m k).site.machine.frames.length
  no_failure : ∀ k, i < k → k < j → (m k).activated? = some .pop → (m k).popOutcome = .ok ()

theorem comesBack_iff {i j : Nat} : ComesBack m height i j ↔ Returns m height i j ∧
    (m j).site.machine.frames[1]? = (m (i + 1)).site.machine.frames[1]? := by
  constructor
  · rintro ⟨later, poised, current, hheight, above, caller, no_failure⟩
    exact ⟨⟨later, poised, current, hheight, above, no_failure⟩, caller⟩
  · rintro ⟨⟨later, poised, current, hheight, above, no_failure⟩, caller⟩
    exact ⟨later, poised, current, hheight, above, caller, no_failure⟩

/-- A callee that neither calls nor returns before it is done stays at one height. -/
theorem Returns.of_level {i j : Nat} (hij : i < j) (poised : (m j).Poised)
    (current : (m j).site.currentBehaviour = .pop)
    (hheight : ∀ k < j + 1, i < k → (m k).site.machine.frames.length = height)
    (hnone : ∀ k < j, i < k → (m k).activated?.map Behaviour.key ≠ some Key.pop) :
    Returns m height i j where
  later := hij
  poised := poised
  current := current
  height_eq := hheight j (Nat.lt_succ_self j) hij
  above k hik hkj := Nat.le_of_eq (hheight k (Nat.lt_succ_of_le hkj) hik).symm
  no_failure k hik hkj hpop := absurd (congrArg (Option.map Behaviour.key) hpop) (hnone k hkj hik)

/-- A call that `ITERATE1` has made returns to `ITERATE1`, and gives its result to the frame that is
then below it. -/
theorem Returns.resumes {i j : Nat} (back : Returns m (height + 2) i j) (drives : Drives m)
    (sound : ∀ i, (m i).site.Sound) (keeps : (m j).site.KeepsBuiltins)
    (hprogressed : (m (i + 1)).site.machine.progressed = true) {argument : Option Value}
    {below : Stack}
    (hframes : (m (i + 1)).site.machine.frames = .opened Key.iterateNext argument :: below)
    (hlength : below.length = height + 1) :
    ∃ top caller rest, (m j).site.machine.frames = top :: caller :: rest ∧ rest.length = height ∧
      (m (j + 1)).activated? = none ∧
      (m (j + 1)).site.machine.frames = caller.bind Key.resultVar top.result :: rest ∧
      (m (j + 2)).Poised ∧ (m (j + 2)).activated? = some .iterateNext ∧
      (m (j + 2)).site.machine.frames = caller.bind Key.resultVar top.result :: rest := by
  have hij : i + 1 ≤ j := back.later
  have hactive : (m j).activated? = some .pop := by
    refine back.poised.activates (sound j) ?_ back.current rfl
    exact drives.awaitsReturn sound hij (fun _ => hprogressed)
      (fun k hik hkj => back.no_failure k hik hkj) back.current
  -- The calls that wait below are the same, so the innermost of them returns to the loop.
  have hfloor := drives.floor_eq (by omega : 1 < height + 2) hij
    fun k hik hkj => back.above k hik hkj
  have hheight := back.height_eq
  obtain ⟨top, caller, rest, hjframes⟩ :
      ∃ top caller rest, (m j).site.machine.frames = top :: caller :: rest := by
    match hstack : (m j).site.machine.frames with
    | [] | [_] => simp only [hstack, List.length_cons, List.length_nil] at hheight; omega
    | top :: caller :: rest => exact ⟨top, caller, rest, rfl⟩
  rw [hjframes, List.length_cons, List.length_cons] at hheight
  rw [hjframes, hframes, Stack.floor_of_length_le (by simp only [List.length_cons]; omega),
    Stack.floor_of_length_le (by simp only [List.length_cons]; omega)] at hfloor
  obtain ⟨htop, -⟩ := List.cons.inj (List.reverse_inj.mp hfloor)
  obtain ⟨g, hg, hhead⟩ := keeps.iterateNext
  have hreturn : Builtin.pop (m j).site.begun =
      (.ok (), ((m j).site.begun.withFrames
        (caller.bind Key.resultVar top.result :: rest)).entered .transit g) := by
    have hlisted : (m j).site.begun.machine.table.get? top.returnKey = some g := htop ▸ hg
    have hne : top.returnKey ≠ Key.error := htop ▸ (by decide : Key.iterateNext ≠ Key.error)
    exact Builtin.pop_of_listed (sound j).begun rfl hjframes hlisted hne
  obtain ⟨hnone, hframes₁, hpoised, hactive', hframes₂⟩ :=
    drives.into_builtin sound back.poised hactive rfl hreturn hhead rfl
  exact ⟨top, caller, rest, hjframes, by omega, hnone, hframes₁, hpoised, hactive', hframes₂⟩

/-- The loop goes on where its call returns. -/
theorem ComesBack.atHead {i j : Nat} {cursor : Cursor} {argument : Option Value} {frame : Frame}
    {rest : Stack} (back : ComesBack m (height + 2) i j) (supports : Supports m body next)
    (hprogressed : (m (i + 1)).site.machine.progressed = true)
    (hframes : (m (i + 1)).site.machine.frames =
      .opened Key.iterateNext argument :: frame :: rest)
    (hlength : rest.length = height) (hloops : frame.Loops cursor body next) :
    (m (j + 1)).activated? = none ∧ (m (j + 1)).site.machine.frames.length = height + 1 ∧
      (m (j + 2)).AtHead height cursor body next := by
  obtain ⟨top, caller, rest', hjframes, hrest, hnone, hframes₁, hpoised, hactive, hframes₂⟩ :=
    (comesBack_iff.mp back).1.resumes supports.drives supports.sound (supports.keeps j) hprogressed
      hframes (by rw [List.length_cons, hlength])
  have hcaller := back.caller
  rw [hjframes, hframes] at hcaller
  obtain rfl : caller = frame := Option.some.inj hcaller
  exact ⟨hnone, by rw [hframes₁, List.length_cons, hrest], hpoised, hactive, _, rest', hframes₂,
    hrest, hloops.bind_result top.result⟩

/-- At the moment `i` the loop whose frame has `height` frames below it enters its body. The frame has
been there all the time. -/
structure Visits (m : Nat → Execution ρ) (height : Nat) (body : Key) (i : Nat) : Prop where
  unbroken : ∀ k ≤ i, height < (m k).site.machine.frames.length
  active : (m i).activated? = some .iterateNext
  height_eq : (m i).site.machine.frames.length = height + 1
  pushed : (m (i + 1)).site.machine.frames.length = height + 2
  current : (m (i + 1)).site.machine.current.key = body

/-- The body is entered in a frame that has the value for its argument and returns to the loop. -/
def Receives (m : Nat → Execution ρ) (height i : Nat) (v : Value) : Prop :=
  ∃ top rest, (m (i + 1)).site.machine.frames = top :: rest ∧ top.argument = some v ∧
    top.returnKey = Key.iterateNext ∧ rest.length = height + 1

theorem Leaves.not_visits {i k : Nat} (leaves : Leaves m height next i) (hik : i ≤ k) :
    ¬ Visits m height body k := by
  intro visit
  rcases Nat.lt_or_ge k (i + 3) with hk | hk
  · obtain rfl | rfl | rfl : k = i ∨ k = i + 1 ∨ k = i + 2 := by omega
    · have hpushed := visit.pushed
      rw [leaves.kept_height] at hpushed
      omega
    · have hactive := visit.active
      rw [leaves.not_resumed] at hactive
      cases hactive
    · have hactive := visit.active
      rw [leaves.pop_active] at hactive
      cases hactive
  · have hopen := visit.unbroken (i + 3) hk
    rw [leaves.height_eq] at hopen
    omega

theorem Returns.unbroken {i j : Nat} (back : Returns m (height + 2) i j)
    (hopen : ∀ k ≤ i, height < (m k).site.machine.frames.length)
    (hreturned : (m (j + 1)).site.machine.frames.length = height + 1)
    (hhead : (m (j + 2)).site.machine.frames.length = height + 1) :
    ∀ k ≤ j + 2, height < (m k).site.machine.frames.length := by
  intro k hk
  rcases Nat.lt_or_ge i k with hik | hik
  · rcases Nat.lt_or_ge j k with hjk | hjk
    · obtain rfl | rfl : k = j + 1 ∨ k = j + 2 := by omega
      · omega
      · omega
    · have habove := back.above k hik hjk
      omega
  · exact hopen k hik

/-- The loop does not go on before its call has returned. -/
theorem Returns.not_visits {i j k : Nat} (back : Returns m (height + 2) i j)
    (hnone : (m (j + 1)).activated? = none) (hik : i < k) (hkj : k < j + 2) :
    ¬ Visits m height body k := by
  intro visit
  rcases Nat.lt_or_ge j k with hjk | hjk
  · obtain rfl : k = j + 1 := by omega
    have hactive := visit.active
    rw [hnone] at hactive
    cases hactive
  · have habove := back.above k hik hjk
    rw [visit.height_eq] at habove
    omega

/-- From the moment `a` until the moment `last` the loop enters its body at these moments and at no
others, with these values in turn. -/
structure Delivers (m : Nat → Execution ρ) (height : Nat) (body : Key) (a last : Nat)
    (visits : List Nat) (vs : List Value) : Prop where
  le : a ≤ last
  sorted : visits.Pairwise (· < ·)
  bounds : ∀ i ∈ visits, a ≤ i ∧ i < last
  mem_iff : ∀ i, a ≤ i → i < last → (i ∈ visits ↔ Visits m height body i)
  receives : List.Forall₂ (Receives m height) visits vs

namespace Delivers

variable {a last j : Nat} {visits : List Nat} {v : Value} {vs : List Value}

omit [Inhabited ρ] in
theorem nil : Delivers m height body a a [] [] where
  le := Nat.le_refl a
  sorted := .nil
  bounds := nofun
  mem_iff := fun _ hai hia => absurd hia (Nat.not_lt.mpr hai)
  receives := .nil

/-- One round of the loop comes before the others. -/
theorem cons (visit : Visits m height body a) (receives : Receives m height a v)
    (back : Returns m (height + 2) a j) (hnone : (m (j + 1)).activated? = none)
    (more : Delivers m height body (j + 2) last visits vs) :
    Delivers m height body a last (a :: visits) (v :: vs) := by
  have haj := back.later
  have hjlast := more.le
  refine ⟨by omega, ?_, ?_, ?_, .cons receives more.receives⟩
  · refine List.pairwise_cons.mpr ⟨fun i hi => ?_, more.sorted⟩
    have hi := (more.bounds i hi).1
    omega
  · intro i hi
    rcases List.mem_cons.mp hi with rfl | hi
    · omega
    · have hi := more.bounds i hi
      omega
  · intro i hai hilast
    by_cases hia : i = a
    · subst hia
      exact iff_of_true List.mem_cons_self visit
    · rw [List.mem_cons, or_iff_right hia]
      rcases Nat.lt_or_ge i (j + 2) with hij | hij
      · have hmem : i ∉ visits := by
          intro hmem
          have hi := (more.bounds i hmem).1
          omega
        exact iff_of_false hmem (back.not_visits hnone (by omega) hij)
      · exact more.mem_iff i hij hilast

end Delivers

/-- From the head of the loop each value that is left is visited, in order, and then the loop is
left. The induction is on the values, one round of the loop for each. -/
theorem AtHead.rounds (supports : Supports m body next) (hpos : 0 < height)
    (hback : ∀ i, Visits m height body i → ∃ j, ComesBack m (height + 2) i j)
    {cursor : Cursor} {vs : List Value} (hvalues : cursor.Yields vs) {a : Nat}
    (head : (m a).AtHead height cursor body next)
    (hopen : ∀ k ≤ a, height < (m k).site.machine.frames.length) :
    ∃ visits last, Delivers m height body a last visits vs ∧ Leaves m height next last := by
  induction hvalues generalizing a with
  | done hc => exact ⟨[], a, .nil, head.leaves supports hc hpos⟩
  | @next cursor after v vs hc _ ih =>
    obtain ⟨hkey, hprogressed, frame, rest, hframes, hlength, hloops⟩ :=
      head.enters_body supports hc
    have hpushed : (m (a + 1)).site.machine.frames.length = height + 2 := by
      rw [hframes, List.length_cons, List.length_cons, hlength]
    have hvisit : Visits m height body a := ⟨hopen, head.active, head.height_eq, hpushed, hkey⟩
    have hreceives : Receives m height a v :=
      ⟨_, frame :: rest, hframes, rfl, rfl, by rw [List.length_cons, hlength]⟩
    obtain ⟨j, back⟩ := hback a hvisit
    obtain ⟨hnone, hheight, head'⟩ := back.atHead supports hprogressed hframes hlength hloops
    obtain ⟨returns, -⟩ := comesBack_iff.mp back
    obtain ⟨visits, last, more, hleaves⟩ :=
      ih head' (returns.unbroken hopen hheight head'.height_eq)
    exact ⟨a :: visits, last, .cons hvisit hreceives returns hnone more, hleaves⟩

/-- The loop begins with the first step after the request. -/
theorem atHead_of_iterate {s s₁ : Site ρ} {values : Cursor} (supports : Supports m body next)
    (hcall : s.call Key.iterate (some (.iteration values body)) next = (.ok (), s₁))
    (hstart : m 0 = start s₁ .stepOnce) :
    (m 0).activated? = some .iterate ∧ (m 1).activated? = none ∧
      (m 0).site.machine.frames.length = s.machine.frames.length + 1 ∧
      (m 1).site.machine.frames.length = s.machine.frames.length + 1 ∧
      (m 2).AtHead s.machine.frames.length values body next := by
  obtain ⟨g, hg, rfl⟩ := Site.entered_of_call hcall
  have hsite : (m 0).site = (s.withFrames
      (.opened next (some (.iteration values body)) :: s.machine.frames)).entered .transit g := by
    rw [hstart]
    rfl
  have hpoised : (m 0).Poised := by
    rw [hstart]
    exact ⟨rfl, rfl⟩
  obtain ⟨g', hg', hiterate⟩ := (supports.keeps 0).iterate
  have hcurrent : (m 0).site.currentBehaviour = .iterate := by
    rw [hsite] at hg' hiterate
    obtain rfl : g = g' := Option.some.inj (hg.symm.trans hg')
    rw [hsite, Site.currentBehaviour, Site.entered_current, hiterate]
    rfl
  have hactive : (m 0).activated? = some .iterate :=
    hpoised.activates (supports.sound 0) (by rw [hsite]; rfl) hcurrent rfl
  have hframes : (m 0).site.begun.machine.frames =
      .opened next (some (.iteration values body)) :: s.machine.frames := by
    rw [hsite]
    rfl
  obtain ⟨h, hh, hhead⟩ := (supports.keeps 0).iterateNext
  have hstep := (Builtin.iterate_of_iteration hframes rfl).trans
    (((supports.sound 0).begun.withFrames _).settle_transitTo rfl hh (by decide))
  obtain ⟨hnone, hframes₁, hpoised', hactive', hframes₂⟩ :=
    supports.drives.into_builtin supports.sound hpoised hactive rfl hstep hhead rfl
  refine ⟨hactive, hnone, by rw [hsite]; rfl, by rw [hframes₁]; rfl, hpoised', hactive', ?_⟩
  exact ⟨_, s.machine.frames, hframes₂, rfl, Builtin.loopFrame_loops values body next _⟩

/-- An iteration visits its values once each, in their order, and unwinds, whatever its body does
between entering and coming back. -/
theorem iteration_visits_in_order {s s₁ : Site ρ} {values : Cursor} {vs : List Value}
    (reachable : s.Reachable) (hframes : s.machine.frames ≠ []) (hvalues : values.Yields vs)
    (hbody : s.machine.table.contains body = true) (hbody_ne : body ≠ Key.error)
    (hnext : s.machine.table.contains next = true) (hnext_ne : next ≠ Key.error)
    (hcall : s.call Key.iterate (some (.iteration values body)) next = (.ok (), s₁))
    (hstart : m 0 = start s₁ .stepOnce) (drives : Drives m)
    (keeps : ∀ i, (m i).site.KeepsBuiltins)
    (hback : ∀ i, Visits m s.machine.frames.length body i →
      ∃ j, ComesBack m (s.machine.frames.length + 2) i j) :
    ∃ visits last, visits.Pairwise (· < ·) ∧
      (∀ i, i ∈ visits ↔ Visits m s.machine.frames.length body i) ∧
      List.Forall₂ (Receives m s.machine.frames.length) visits vs ∧
      (∀ i ∈ visits, i < last) ∧ Leaves m s.machine.frames.length next last := by
  have hsound : (m 0).site.Sound := by
    have hleads := s.call_did Key.iterate (some (.iteration values body)) next
    rw [hcall] at hleads
    rw [hstart]
    exact reachable.sound.did hleads trivial
  have hlisted : ∀ key, s.machine.table.contains key = true →
      ∀ i, ∃ h, (m i).site.machine.table.get? key = some h := by
    intro key hk i
    refine Option.isSome_iff_exists.mp (drives.contains ?_ i)
    obtain ⟨g, -, rfl⟩ := Site.entered_of_call hcall
    rw [hstart]
    exact hk
  have supports : Supports m body next :=
    { drives, keeps, sound := drives.sound hsound, body_listed := hlisted body hbody,
      next_listed := hlisted next hnext, body_ne := hbody_ne, next_ne := hnext_ne }
  obtain ⟨hactive₀, hactive₁, hheight₀, hheight₁, head⟩ :=
    atHead_of_iterate supports hcall hstart
  have hopen : ∀ k ≤ 2, s.machine.frames.length < (m k).site.machine.frames.length := by
    intro k hk
    obtain rfl | rfl | rfl : k = 0 ∨ k = 1 ∨ k = 2 := by omega
    · omega
    · omega
    · rw [head.height_eq]
      omega
  obtain ⟨visits, last, delivers, hleaves⟩ :=
    head.rounds supports (List.length_pos_iff.mpr hframes) hback hvalues hopen
  refine ⟨visits, last, delivers.sorted, fun i => ?_, delivers.receives,
    fun i hi => (delivers.bounds i hi).2, hleaves⟩
  rcases Nat.lt_or_ge i 2 with hi | hi
  · refine iff_of_false (fun hmem => ?_) fun visit => ?_
    · have hmem := (delivers.bounds i hmem).1
      omega
    · have hactive := visit.active
      obtain rfl | rfl : i = 0 ∨ i = 1 := by omega
      · rw [hactive₀] at hactive
        cases hactive
      · rw [hactive₁] at hactive
        cases hactive
  · rcases Nat.lt_or_ge i last with hlast | hlast
    · exact delivers.mem_iff i hi hlast
    · refine iff_of_false (fun hmem => ?_) (hleaves.not_visits hlast)
      have hmem := (delivers.bounds i hmem).2
      omega

/-- A driver on a machine that has been asked to visit two values with a state that returns at
once. -/
def twoValues : Nat → Execution Unit :=
  driven (start (((Site.fresh .stack).equip [("Sub", .link Key.pop)]).call Key.iterate
    (some (.iteration (.listed [.int 1, .int 2]) "Sub")) Key.done).2 .stepOnce)

theorem iteration_visits_two_values : ∃ visits last,
    (∀ i, i ∈ visits ↔ Visits twoValues 1 "Sub" i) ∧
      List.Forall₂ (Receives twoValues 1) visits [.int 1, .int 2] ∧
      Leaves twoValues 1 Key.done last := by
  have hcalm : ∀ i, (twoValues i).Honest ∧ (twoValues i).site.KeepsBuiltins := by
    refine driven_of_periodic (P := fun e => e.Honest ∧ e.site.KeepsBuiltins) (by decide : 0 < 2)
      (driven_of_done ⟨rfl, rfl⟩ rfl : _ = twoValues 22) fun i hi => ?_
    interval_cases i <;>
      exact ⟨trivial, ⟨_, rfl, rfl⟩, ⟨_, rfl, rfl⟩, ⟨_, rfl, rfl⟩⟩
  obtain ⟨visits, last, -, hvisits, hreceives, -, hleaves⟩ :=
    iteration_visits_in_order
      (Site.equip_reachable (Site.fresh_born .stack) [("Sub", .link Key.pop)])
      (List.cons_ne_nil _ _) (Cursor.yields_listed [.int 1, .int 2]) rfl (by decide) rfl (by decide)
      rfl rfl (drives_driven fun i => (hcalm i).1) (fun i => (hcalm i).2) (by
        intro i visit
        have hi : i < 21 := by
          by_contra hle
          exact absurd (visit.unbroken 21 (by omega)) (by decide +kernel)
        have hcases : ∀ i < 21,
            (twoValues i).activated?.map Behaviour.key = some Key.iterateNext →
            (twoValues (i + 1)).site.machine.frames.length = 3 → i = 2 ∨ i = 10 := by
          decide +kernel
        obtain rfl | rfl := hcases i hi (congrArg (Option.map Behaviour.key) visit.active)
          visit.pushed
        · exact ⟨8, comesBack_iff.mpr ⟨.of_level (by decide) ⟨rfl, rfl⟩ rfl (by decide +kernel)
            (by decide +kernel), rfl⟩⟩
        · exact ⟨16, comesBack_iff.mpr ⟨.of_level (by decide) ⟨rfl, rfl⟩ rfl (by decide +kernel)
            (by decide +kernel), rfl⟩⟩)
  exact ⟨visits, last, hvisits, hreceives, hleaves⟩

end Execution

end StateEngine
