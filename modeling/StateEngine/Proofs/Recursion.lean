import StateEngine.Proofs.Marching

/-!
# Recursion through calls

A recurrence is computed on the stack by two states. The one calls itself for the number before its
own until that is zero; the other finds what the call has returned and returns the next value. A
call of the first leaves its caller as it was but for the result.
-/

namespace StateEngine

variable {ρ : Type}

namespace Site

/-- What a state does that looks at the machine and then makes one request. -/
theorem Steps.of_inspection {s : Site ρ} (hd : s.machine.demand = .ok true) {key : Key}
    {look : Machine → Program ρ} {op : Op} {go : op.Answer → Program ρ} {r : ρ}
    (hb : s.currentBehaviour = .routine key (.perform .inspect look))
    (hlook : look s.begun.machine = .perform op go) (hgo : go (s.begun.answer op).1 = .done r)
    (hp : (s.begun.answer op).2.machine.progressed = true) :
    s.Steps (.ok true) (s.begun.answer op).2 := by
  have hinspect : (Execution.start s.begun (.perform .inspect look)).next =
      .inl (.start s.begun (.perform op go)) := by rw [← hlook]; rfl
  have hperform : (Execution.start s.begun (.perform op go)).next =
      .inl (.start (s.begun.answer op).2 (.done r)) := by rw [← hgo]; rfl
  have hrun : Execution.run 3 (.start s.begun (.perform .inspect look)) =
      some (.finished r, (s.begun.answer op).2) := by
    rw [Execution.run, hinspect]
    dsimp only
    rw [Execution.run, hperform]
    rfl
  exact .of_run hd hb hrun hp

theorem Sound.giveBack_eq {s : Site ρ} (sound : s.Sound) (hp : s.machine.progressed = false)
    {h : Handle} (hk : s.machine.table.get? Key.pop = some h) {top : Frame} {rest : Stack}
    (hframes : s.machine.frames = top :: rest) (hr : top.result = none) (value : Value) :
    s.giveBack value = (.ok (),
      (s.withFrames ({ top with result := some value } :: rest)).entered .transit h) := by
  have hwritten : s.onTop (writeResult value) =
      .ok (s.withFrames ({ top with result := some value } :: rest)) := by
    rw [onTop, hframes]
    simp only [writeResult, Frame.putResult?, hr, Option.isSome_none]
    rfl
  rw [giveBack, hwritten]
  exact (sound.withFrames ({ top with result := some value } :: rest)).settle_transitTo hp hk
    (by decide)

/-- The return delivers what the frame on top has as its result. -/
theorem Inherits.travels_pop {s₀ s : Site ρ} (inherits : s.Inherits s₀) {h g : Handle} {top : Frame}
    {rest : Stack} (arrives : s.Arrives h (top :: rest)) (hh : s₀.machine.table.get? Key.pop = some h)
    (hb : s₀.store.behaviour? h = some .pop)
    (hg : s₀.machine.table.get? top.returnKey = some g) (hne : top.returnKey ≠ Key.error) :
    ∃ s', Travels s₀ s [Key.pop] g (Builtin.delivered top.result rest) s' := by
  have hcurrent := inherits.currentBehaviour_eq hb arrives
  refine inherits.travels arrives hh (by decide) hg hne fun _ => ?_
  exact inherits.sound.steps_pop hcurrent arrives.progressed arrives.frames
    (inherits.table ▸ hg) hne

end Site

/-- A recurrence on values: what it starts with, and how each value comes from the one before it.
The numbers are values too when they are handed to a call. -/
structure Recurrence where
  index : Nat → Value
  number : Value → Nat
  base : Value
  next : Nat → Value → Value

namespace Recurrence

/-- The value at a number. -/
def value (r : Recurrence) : Nat → Value
  | 0 => r.base
  | k + 1 => r.next (k + 1) (r.value k)

/-- The numbers up to `n` can be told from the values that they are handed over as, and all values
of the recurrence have one type. -/
structure Legible (r : Recurrence) (n : Nat) : Prop where
  number_index : ∀ k ≤ n, r.number (r.index k) = k
  index_type : ∀ k ≤ n, (r.index k).type = (r.index 0).type
  next_type : ∀ k v, v.type = r.base.type → (r.next k v).type = r.base.type

theorem Legible.value_type {r : Recurrence} {n : Nat} (legible : r.Legible n) (k : Nat) :
    (r.value k).type = r.base.type := by
  induction k with
  | zero => rfl
  | succ k ih => exact legible.next_type _ _ ih

variable [Inhabited ρ]

/-- The state `inward` returns the base at zero and calls itself for the number before otherwise;
that call returns to `outward`. -/
def descend (r : Recurrence) (inward outward : Key) : Program ρ :=
  .perform .inspect fun (m : Machine) =>
    match m.argument? (r.index 0).type with
    | none => .fail (.argumentType inward "a number")
    | some k =>
      if r.number k = 0 then .perform (.giveBack r.base) .settle
      else .perform (.call inward (some (r.index (r.number k - 1))) outward) .settle

/-- The state `outward` returns the value that follows the one it was given back. -/
def ascend (r : Recurrence) (outward : Key) : Program ρ :=
  .perform .inspect fun (m : Machine) =>
    match m.argument? (r.index 0).type with
    | none => .fail (.argumentType outward "a number")
    | some k =>
      match m.result? r.base.type with
      | none => .fail (.unboundVar Key.resultVar)
      | some v => .perform (.giveBack (r.next (r.number k) v)) .settle

/-- The two states and the return stand in the table. -/
structure Installed (r : Recurrence) (s : Site ρ) (inward outward : Key) : Prop where
  pop : s.Registers .pop
  descend : s.Registers (.routine inward (r.descend inward outward))
  ascend : s.Registers (.routine outward (r.ascend outward))
  inward_free : Key.isReserved inward = false
  outward_free : Key.isReserved outward = false

/-- The keys of the states that a call for the number is made of. -/
def trace (inward outward : Key) : Nat → List Key
  | 0 => [inward, Key.pop]
  | k + 1 => inward :: (trace inward outward k ++ [outward, Key.pop])

theorem length_trace (inward outward : Key) (n : Nat) :
    (trace inward outward n).length = 3 * n + 2 := by
  induction n with
  | zero => rfl
  | succ n ih =>
    simp only [trace, List.length_cons, List.length_append, ih, List.length_nil]
    omega

theorem count_trace {inward outward : Key} (hinward : inward ≠ Key.pop)
    (houtward : outward ≠ Key.pop) (hne : inward ≠ outward) (n : Nat) :
    (trace inward outward n).count inward = n + 1 ∧ (trace inward outward n).count Key.pop = n + 1 ∧
      (trace inward outward n).count outward = n := by
  induction n with
  | zero => simp [trace, hinward, hinward.symm, hne, houtward.symm]
  | succ n ih =>
    obtain ⟨hs, hp, ho⟩ := ih
    simp [trace, hs, hp, ho, hinward, hinward.symm, houtward, houtward.symm, hne, hne.symm]

theorem argument?_of_frames {r : Recurrence} {n k : Nat} (legible : r.Legible n) (hk : k ≤ n)
    {m : Machine} {top : Frame} {rest : Stack} (hframes : m.frames = top :: rest)
    (harg : top.argument = some (r.index k)) :
    m.argument? (r.index 0).type = some (r.index k) := by
  rw [Machine.argument?, hframes]
  simp only [List.head?_cons, Option.bind_some, harg]
  exact Value.as?_eq_some_iff.mpr ⟨legible.index_type k hk, rfl⟩

theorem result?_of_frames {r : Recurrence} {n k : Nat} (legible : r.Legible n) {m : Machine}
    {top : Frame} {rest : Stack}
    (hframes : m.frames = top.bind Key.resultVar (some (r.value k)) :: rest) :
    m.result? r.base.type = some (r.value k) := by
  have hbound : (top.bind Key.resultVar (some (r.value k))).binding? Key.resultVar =
      some (some (r.value k)) := by
    rw [Frame.binding?, Frame.bind, Table.get?_insert, if_pos rfl]
  rw [Machine.result?, Machine.var?, Stack.var?, hframes, Stack.search_cons, hbound]
  exact Value.as?_eq_some_iff.mpr ⟨legible.value_type k, rfl⟩

theorem Installed.keys_distinct {r : Recurrence} {s : Site ρ} {inward outward : Key} {n : Nat}
    (installed : r.Installed s inward outward) (legible : r.Legible n) :
    inward ≠ Key.pop ∧ outward ≠ Key.pop ∧ inward ≠ outward := by
  refine ⟨?_, ?_, ?_⟩
  · rintro rfl
    cases installed.descend.unique installed.pop rfl
  · rintro rfl
    cases installed.ascend.unique installed.pop rfl
  · rintro rfl
    -- Handed zero where nothing was returned yet, the one state returns and the other fails.
    have hbodies := installed.descend.unique installed.ascend rfl
    injection hbodies with _ hbodies
    injection hbodies with _ hlook
    let m : Machine := { s.machine with frames := [.opened inward (some (r.index 0))] }
    have hm := congrFun hlook m
    have hread := argument?_of_frames legible (Nat.zero_le n) (show m.frames = _ from rfl) rfl
    have hnothing : m.result? r.base.type = none := rfl
    simp [hread, hnothing, legible.number_index 0 (Nat.zero_le n)] at hm

section Subroutine

variable {r : Recurrence} {s₀ s : Site ρ} {inward outward returnKey : Key} {n k : Nat}
  {h g : Handle} {caller : Frame} {rest : Stack}

/-- A state that returns at once is back at the caller after the return. -/
theorem travels_back (inherits : s.Inherits s₀) {key : Key} {top : Frame}
    (arrives : s.Arrives h (top :: caller :: rest)) {look : Machine → Program ρ} {v : Value}
    (hh : s₀.machine.table.get? key = some h)
    (hb : s₀.store.behaviour? h = some (.routine key (.perform .inspect look)))
    (hfree : Key.isReserved key = false) (hpop : s₀.Registers .pop)
    (hlook : look s.begun.machine = .perform (.giveBack v) .settle) (hr : top.result = none)
    (hg : s₀.machine.table.get? top.returnKey = some g) (hne : top.returnKey ≠ Key.error) :
    ∃ s', s₀.Travels s [key, Key.pop] g (caller.bind Key.resultVar (some v) :: rest) s' := by
  obtain ⟨p, hp, hpb⟩ : ∃ p, s₀.machine.table.get? Key.pop = some p ∧
    s₀.store.behaviour? p = some .pop := hpop
  have hgive : s.begun.answer (.giveBack v) = (.ok (), (s.begun.withFrames
      ({ top with result := some v } :: caller :: rest)).entered .transit p) :=
    inherits.sound.begun.giveBack_eq rfl (inherits.table ▸ hp) arrives.frames hr v
  obtain ⟨s₁, hfirst⟩ : ∃ s₁, s₀.Travels s [key] p
      ({ top with result := some v } :: caller :: rest) s₁ := by
    refine inherits.travels arrives hh hfree hp (by decide) fun hd => ?_
    have hstep := Site.Steps.of_inspection hd (inherits.currentBehaviour_eq hb arrives) hlook
      (r := default) (by rw [hgive]; rfl) (by rw [hgive]; rfl)
    rwa [hgive] at hstep
  obtain ⟨s', hsecond⟩ := hfirst.inherits.travels_pop hfirst.arrives hp hpb hg hne
  exact ⟨s', hfirst.trans hsecond⟩

/-- With a number that is not zero the recursion goes one call deeper. -/
theorem travels_down {top : Frame} (inherits : s.Inherits s₀)
    (installed : r.Installed s₀ inward outward) (legible : r.Legible n) (hk : k + 1 ≤ n)
    (hh : s₀.machine.table.get? inward = some h) (arrives : s.Arrives h (top :: rest))
    (harg : top.argument = some (r.index (k + 1))) :
    ∃ s', s₀.Travels s [inward] h (.opened outward (some (r.index k)) :: top :: rest) s' := by
  have hb := installed.descend.behaviour?_eq hh
  have hne := Key.ne_error_of_free installed.inward_free
  have hcall : s.begun.answer (.call inward (some (r.index k)) outward) = (.ok (),
      (s.begun.withFrames (.opened outward (some (r.index k)) :: top :: rest)).entered
        .transit h) := by
    have heq := inherits.sound.begun.call_eq rfl (inherits.table ▸ hh) hne (some (r.index k))
      outward
    rwa [show s.begun.machine.frames = top :: rest from arrives.frames] at heq
  refine inherits.travels arrives hh installed.inward_free hh hne fun hd => ?_
  have hread := argument?_of_frames legible hk
    (show s.begun.machine.frames = top :: rest from arrives.frames) harg
  have hstep : s.Steps (.ok true) (s.begun.answer (.call inward (some (r.index k)) outward)).2 := by
    refine .of_inspection hd (inherits.currentBehaviour_eq hb arrives) ?_
      (show Program.settle _ = .done default by rw [hcall]; rfl) (by rw [hcall]; rfl)
    simp only [hread]
    rw [legible.number_index (k + 1) hk, if_neg (Nat.succ_ne_zero k), Nat.add_sub_cancel]
  rwa [hcall] at hstep

/-- A call of the recursion is back at its caller after the whole trace. -/
theorem travels_trace (installed : r.Installed s₀ inward outward) (legible : r.Legible n)
    (hk : k ≤ n) (hh : s₀.machine.table.get? inward = some h) (inherits : s.Inherits s₀)
    (hg : s₀.machine.table.get? returnKey = some g) (hne : returnKey ≠ Key.error)
    (arrives : s.Arrives h (.opened returnKey (some (r.index k)) :: caller :: rest)) :
    ∃ s', s₀.Travels s (trace inward outward k) g
      (caller.bind Key.resultVar (some (r.value k)) :: rest) s' := by
  have hb := installed.descend.behaviour?_eq hh
  induction k generalizing s returnKey caller rest g with
  | zero =>
    refine travels_back inherits arrives hh hb installed.inward_free installed.pop ?_ rfl hg hne
    have hread := argument?_of_frames legible hk
      (show s.begun.machine.frames = _ from arrives.frames) rfl
    simp only [hread, legible.number_index 0 hk, if_true]
    rfl
  | succ k ih =>
    obtain ⟨c, hc, hcb⟩ : ∃ c, s₀.machine.table.get? outward = some c ∧
      s₀.store.behaviour? c = some (.routine outward (r.ascend outward)) := installed.ascend
    have houtward := Key.ne_error_of_free installed.outward_free
    obtain ⟨s₁, down⟩ := travels_down inherits installed legible hk hh arrives rfl
    obtain ⟨s₂, inner⟩ := ih (by omega) down.inherits hc houtward down.arrives
    have hframes := show s₂.begun.machine.frames = _ from inner.arrives.frames
    have hback : ∃ s', s₀.Travels s₂ [outward, Key.pop] g
        (caller.bind Key.resultVar (some (r.value (k + 1))) :: rest) s' := by
      refine travels_back inner.inherits inner.arrives hc hcb installed.outward_free
        installed.pop ?_ rfl hg hne
      simp only [argument?_of_frames legible hk hframes rfl, result?_of_frames legible hframes]
      rw [legible.number_index (k + 1) hk, value]
    obtain ⟨s₃, back⟩ := hback
    exact ⟨s₃, down.trans (inner.trans back)⟩

end Subroutine

/-- A call of the recursion enters its return key after `3 n + 2` activations, and what it returns
is the value of the recurrence. The frames are those from before the call, with that value as the
result. -/
theorem recursion_computes {r : Recurrence} {s : Site ρ} {inward outward report : Key} {n : Nat}
    {g : Handle} {top : Frame} {rest : Stack} (sound : s.Sound)
    (installed : r.Installed s inward outward) (legible : r.Legible n)
    (hp : s.machine.progressed = false) (hframes : s.machine.frames = top :: rest)
    (hg : s.machine.table.get? report = some g) (hne : report ≠ Key.error) :
    ∃ s₁ s' keys, s.call inward (some (r.index n)) report = (.ok (), s₁) ∧ s₁.Marches keys s' ∧
      keys.length = 3 * n + 2 ∧ keys.count inward = n + 1 ∧ keys.count Key.pop = n + 1 ∧
      keys.count outward = n ∧ s'.machine.steps = s.machine.steps + (3 * n + 2) ∧
      s'.machine.current = g ∧ s'.machine.progressed = true ∧
      s'.machine.frames = top.bind Key.resultVar (some (r.value n)) :: rest ∧
      s'.machine.result? r.base.type = some (r.value n) := by
  obtain ⟨h, hh, -⟩ : ∃ h, s.machine.table.get? inward = some h ∧ _ := installed.descend
  have hinward := Key.ne_error_of_free installed.inward_free
  have hcall := sound.call_eq hp hh hinward (some (r.index n)) report
  rw [hframes] at hcall
  obtain ⟨rfl, howned, hknown⟩ := sound.lists _ _ hh
  have inherits : ((s.withFrames (.opened report (some (r.index n)) :: top :: rest)).entered
      .transit h).Inherits s :=
    ⟨(sound.withFrames _).entered ⟨fun _ => hp, howned, hinward⟩ hknown, rfl, rfl⟩
  obtain ⟨s', travels⟩ := travels_trace installed legible (Nat.le_refl n) hh inherits hg hne
    ⟨rfl, rfl, rfl⟩
  obtain ⟨hne₁, hne₂, hne₃⟩ := installed.keys_distinct legible
  obtain ⟨hdown, hpop, hup⟩ := count_trace hne₁ hne₂ hne₃ n
  have hsteps := travels.steps
  rw [length_trace] at hsteps
  exact ⟨_, s', _, hcall, travels.marches, length_trace _ _ n, hdown, hpop, hup, hsteps,
    travels.arrives.current, travels.arrives.progressed, travels.arrives.frames,
    result?_of_frames legible travels.arrives.frames⟩

/-- The sum of the numbers up to a given one. -/
def sum : Recurrence where
  index k := .int (Int64.ofNat k)
  number
    | .int n => n.toInt.toNat
    | _ => 0
  base := .int 0
  next
    | k, .int n => .int (Int64.ofNat k + n)
    | _, v => v

/-- A machine with the two states that sum. -/
def summing : Site Unit :=
  (Site.fresh .stack).equip [("Sum", sum.descend "Sum" "Add"), ("Add", sum.ascend "Add")]

/-- Three and the numbers below it are summed on top of the sentinel. -/
theorem recursion_computes_six : ∃ s₁ s' keys,
    summing.call "Sum" (some (.int 3)) Key.done = (.ok (), s₁) ∧ s₁.Marches keys s' ∧
      keys.length = 11 ∧ s'.machine.isDone = true ∧ s'.machine.frames.length = 1 ∧
      s'.machine.result? .int = some (.int 6) := by
  have sound : summing.Sound := (Site.equip_reachable (Site.fresh_born .stack) _).sound
  have installed : sum.Installed summing "Sum" "Add" :=
    ⟨⟨_, rfl, rfl⟩, ⟨_, rfl, rfl⟩, ⟨_, rfl, rfl⟩, by decide, by decide⟩
  have legible : sum.Legible 3 := by
    refine ⟨by decide, by decide, fun k v hv => ?_⟩
    cases v with
    | int => rfl
    | _ => cases hv
  obtain ⟨s₁, s', keys, hcall, hmarches, hlength, -, -, -, -, hcurrent, -, hframes, hresult⟩ :=
    recursion_computes sound installed legible rfl rfl
      (show summing.machine.table.get? Key.done = some _ from rfl) (by decide)
  refine ⟨s₁, s', keys, hcall, hmarches, hlength, ?_, ?_, hresult⟩
  · rw [Machine.isDone, hcurrent]
    rfl
  · rw [hframes]
    rfl

end Recurrence

end StateEngine
