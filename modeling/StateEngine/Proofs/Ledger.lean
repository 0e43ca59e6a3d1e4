import StateEngine.Proofs.Soundness

/-!
# Calls and returns

The moments that a run has passed tell which frames were pushed and not removed since. The stack of
the machine agrees with that list at every moment, whatever fails on the way, so each return belongs
to the latest call that has not returned.
-/

namespace StateEngine

variable {ρ : Type}

/-- How a frame came to the stack. -/
inductive Opening where
  | sentinel
  /-- By a call, over the frame of the caller if there was one. -/
  | call (returnKey : Key) (argument : Option Value) (caller : Option (Key × Option Value))

namespace Opening

/-- The key that was given for the return. -/
def returnKey : Opening → Key
  | .sentinel => Key.error
  | .call returnKey _ _ => returnKey

/-- What an event on the stack does to the frames that are still to be removed. -/
def after (frames : Stack) : Option StackEvent → List Opening → List Opening
  | none, openings => openings
  | some (.opened returnKey argument), openings =>
    .call returnKey argument (frames.head?.map Frame.header) :: openings
  | some .closed, openings => openings.tail
  | some .renewed, _ => [.sentinel]

end Opening

/-- A stack holds the frames that were opened, in order. An iteration takes the argument out of its
frame. -/
inductive Stack.Records : Stack → List Opening → Prop where
  | nil : Records [] []
  | sentinel {frame : Frame} : frame.returnKey = Key.error → Records [frame] [.sentinel]
  | call {frame : Frame} {rest : Stack} {returnKey : Key} {argument : Option Value}
      {openings : List Opening} : frame.returnKey = returnKey →
      (frame.argument = argument ∨ frame.argument = none) → Records rest openings →
      Records (frame :: rest)
        (.call returnKey argument (rest.head?.map Frame.header) :: openings)

namespace Stack.Records

theorem initial : Records Stack.initial [.sentinel] := .sentinel rfl

theorem touched {before after : Stack} {openings : List Opening} (h : Records before openings)
    (ht : Touched before after) : Records after openings := by
  induction ht generalizing openings with
  | nil => exact h
  | cons hp ht ih =>
    cases h with
    | sentinel hr =>
      cases ht
      exact .sentinel (hp.returnKey.trans hr)
    | call hr ha hrest =>
      rw [← Touched.head?_header ht]
      exact .call (hp.returnKey.trans hr) (hp.argument ▸ ha) (ih hrest)

theorem tail {top : Frame} {rest : Stack} {openings : List Opening}
    (h : Records (top :: rest) openings) : Records rest openings.tail := by
  cases h with
  | sentinel => exact .nil
  | call _ _ hrest => exact hrest

theorem change {event : Option StackEvent} {before after : Stack} {openings : List Opening}
    (h : Records before openings) (hc : Change event before after) :
    Records after (Opening.after before event openings) := by
  cases hc with
  | kept ht => exact h.touched ht
  | taken hr ha _ =>
    cases h with
    | sentinel hs => exact .sentinel (hr.trans hs)
    | call hk _ hrest => exact .call (hr.trans hk) (.inr ha) hrest
  | opened ht =>
    rw [Opening.after, ← ht.head?_header]
    exact .call rfl (.inl rfl) (h.touched ht)
  | closed ht => exact h.tail.touched ht
  | renewed => exact initial

end Stack.Records

namespace Execution

/-- The frames that were pushed and not removed since, the latest first. -/
def unreturned : List (Execution ρ) → List Opening
  | [] => [.sentinel]
  | e :: past => Opening.after e.site.machine.frames e.stackEvent (unreturned past)

end Execution

theorem Site.Did.kind_eq {s s' : Site ρ} {op : Op} (h : s.Did op s') :
    s'.machine.kind = s.machine.kind := by
  cases h with
  | nothing | noted | edited | moved | attached => rfl
  | stacked _ hl => cases hl <;> rfl

theorem Execution.Deed.kind_eq {e : Execution ρ} {s' : Site ρ} (h : e.Deed s') :
    s'.machine.kind = e.site.machine.kind := by
  cases h with
  | idle | wrapped => rfl
  | performed _ hd => exact hd.kind_eq
  | activated _ _ hl => cases hl <;> rfl

theorem Site.Born.records {s : Site ρ} (born : s.Born) (hkind : s.machine.kind = .stack) :
    s.machine.frames.Records [.sentinel] := by
  refine Born.induction
    (P := fun s : Site ρ => s.machine.kind = .stack → s.machine.frames.Records [.sentinel])
    ?_ ?_ ?_ ?_ born hkind
  · intro s s' h hm _ hkind
    rw [hm] at hkind ⊢
    exact h hkind
  · intro store id kind given limit observers s hm _ hkind
    rw [hm] at hkind ⊢
    obtain rfl : kind = .stack := hkind
    exact .initial
  · intro s h s' hs _ hd hkind
    exact (hs (hd.kind_eq ▸ hkind)).change hd.change
  · intro s key s' hs hd hkind
    exact (hs (hd.kind_eq ▸ hkind)).change hd.change

namespace Builtin

/-- How a refused return is reported with the frames `rest` left. -/
def returnError (machine : String) : Stack → MachineError → MachineError
  | [], e => .stackUnderflow machine e
  | _ :: _, e => e

theorem pop_of_frames {s : Site ρ} {top : Frame} {rest : Stack}
    (hf : s.machine.frames = top :: rest) :
    pop s =
      match (s.withFrames (delivered top.result rest)).transitTo top.returnKey with
      | .ok s' => (.ok (), s')
      | .error e =>
        (.error (returnError s.machine.name rest e), s.withFrames (delivered top.result rest)) := by
  unfold pop
  rw [hf]
  cases rest with
  | nil => rfl
  | cons caller below =>
    simp only [delivered]
    cases (s.withFrames (caller.bind Key.resultVar top.result :: below)).transitTo top.returnKey with
    | ok s' => rfl
    | error e => rfl

section

variable {s : Site ρ} {top : Frame} {rest : Stack} (sound : s.Sound)
  (hp : s.machine.progressed = false) (hf : s.machine.frames = top :: rest)

include sound hp hf

theorem pop_of_unknown (hk : s.machine.table.get? top.returnKey = none) :
    pop s =
      (.error (returnError s.machine.name rest (.unknownKey top.returnKey s.machine.name)),
        s.withFrames (delivered top.result rest)) := by
  rw [pop_of_frames hf, (sound.withFrames (delivered top.result rest)).transitTo_eq hp]
  simp only [Site.withFrames_table, hk, Site.withFrames_name]

theorem pop_of_fault (he : top.returnKey = Key.error) :
    pop s =
      (.error (returnError s.machine.name rest (.enterError s.machine.current.key)),
        s.withFrames (delivered top.result rest)) := by
  obtain ⟨g, hg⟩ := Option.isSome_iff_exists.mp sound.error_listed
  rw [pop_of_frames hf, (sound.withFrames (delivered top.result rest)).transitTo_eq hp]
  simp only [he, Site.withFrames_table, hg, if_true, Site.withFrames_current]

theorem pop_of_listed {g : Handle} (hk : s.machine.table.get? top.returnKey = some g)
    (hne : top.returnKey ≠ Key.error) :
    pop s = (.ok (), (s.withFrames (delivered top.result rest)).entered .transit g) := by
  rw [pop_of_frames hf, (sound.withFrames (delivered top.result rest)).transitTo_eq hp]
  simp only [Site.withFrames_table, hk, if_neg hne]

end

theorem progressed_of_pop {s : Site ρ} (h : (pop s).1 = .ok ()) :
    (pop s).2.machine.progressed = true := by
  cases hf : s.machine.frames with
  | nil => simp [pop, hf] at h
  | cons top rest =>
    rw [pop_of_frames hf] at h ⊢
    cases ht : (s.withFrames (delivered top.result rest)).transitTo top.returnKey with
    | error e => simp [ht] at h
    | ok s' =>
      obtain ⟨g, -, -, rfl⟩ := Site.move_eq_ok_iff.mp ht
      rfl

end Builtin

namespace Execution

theorem stackEvent_of_ended {e : Execution ρ} {outcome : Outcome ρ}
    (h : e.next = .inr outcome) : e.stackEvent = none := by
  rcases ended_cases h with ⟨_, -, hf, -⟩ | ⟨_, -, hf, -⟩ | ⟨_, -, hf⟩ <;> rw [stackEvent, hf]

/-- The stack agrees with what the moments so far have pushed and removed. -/
theorem Run.records {first e : Execution ρ} {past : List (Execution ρ)} (run : Run first past e)
    (h : first.site.machine.frames.Records [.sentinel]) :
    e.site.machine.frames.Records (unreturned past) := by
  induction run with
  | start => exact h
  | step _ _ next ih => exact ih.change (next_deed next).change
  | again p _ next ih =>
    rw [unreturned, stackEvent_of_ended next]
    exact ih
  | meanwhile _ _ _ _ ih => exact ih

/-- A moment at which a call goes through whose key is registered: one that was asked for, or the
one that `ITERATE1` makes for the next element. -/
def Calls (e : Execution ρ) (callee : Key) (argument : Option Value) (returnKey : Key) : Prop :=
  e.site.machine.table.contains callee = true ∧
    ((∃ go, e.focus = .perform (.call callee argument returnKey) go) ∨
      (e.activated? = some .iterateNext ∧ returnKey = Key.iterateNext ∧
        ∃ element, argument = some element ∧
          Builtin.nextCall? e.site.machine.frames = some (element, callee)))

/-- A moment at which the innermost frame is removed. -/
def Pops (e : Execution ρ) (top : Frame) (rest : Stack) : Prop :=
  e.activated? = some .pop ∧ e.site.machine.frames = top :: rest

/-- What an activation of `POP` ends with. -/
def popOutcome (e : Execution ρ) : Except MachineError Unit := (Builtin.pop e.site.begun).1

/-- A moment at which the stack is replaced as a whole. -/
def RenewsStack (e : Execution ρ) : Prop := ∃ go, e.focus = .perform .resetStack go

theorem Calls.stackEvent_eq {e : Execution ρ} {callee returnKey : Key} {argument : Option Value}
    (h : e.Calls callee argument returnKey) :
    e.stackEvent = some (.opened returnKey argument) := by
  obtain ⟨hk, ⟨go, hf⟩ | ⟨ha, rfl, element, rfl, hn⟩⟩ := h
  · simp only [stackEvent, hf, Site.stackEvent, hk, if_true]
  · obtain ⟨⟨go, hf⟩, -⟩ := activated?_eq_some_iff.mp ha
    simp only [stackEvent, hf, ha, Option.bind_some, Builtin.stackEvent, hn, hk, if_true]

theorem Pops.stackEvent_eq {e : Execution ρ} {top : Frame} {rest : Stack} (h : e.Pops top rest) :
    e.stackEvent = some .closed := by
  obtain ⟨⟨go, hf⟩, -⟩ := activated?_eq_some_iff.mp h.1
  simp only [stackEvent, hf, h.1, Option.bind_some, Builtin.stackEvent, h.2, List.cons_ne_nil,
    if_false]

/-- Nothing else happens to the number of frames. -/
theorem stackEvent_cases (e : Execution ρ) :
    e.stackEvent = none ∨ (∃ callee argument returnKey, e.Calls callee argument returnKey) ∨
      (∃ top rest, e.Pops top rest) ∨ e.RenewsStack := by
  cases hf : e.focus with
  | done | fail | panic | wrap | go | finish => exact .inl (by rw [stackEvent, hf])
  | perform op go =>
    cases op with
    | call callee argument returnKey =>
      by_cases hk : e.site.machine.table.contains callee = true
      · exact .inr (.inl ⟨callee, argument, returnKey, hk, .inl ⟨go, hf⟩⟩)
      · exact .inl (by simp only [stackEvent, hf, Site.stackEvent, if_neg hk])
    | resetStack => exact .inr (.inr (.inr ⟨go, hf⟩))
    | _ => exact .inl (by simp only [stackEvent, hf, Site.stackEvent])
  | step go =>
    have hq : e.stackEvent = e.activated?.bind (Builtin.stackEvent e.site) := by
      simp only [stackEvent, hf]
    cases ha : e.activated? with
    | none => exact .inl (by rw [hq, ha]; rfl)
    | some b =>
      rw [ha, Option.bind_some] at hq
      cases b with
      | constant | iterate | routine => exact .inl hq
      | pop =>
        cases hs : e.site.machine.frames with
        | nil => exact .inl (by rw [hq, Builtin.stackEvent, if_pos hs])
        | cons top rest => exact .inr (.inr (.inl ⟨top, rest, ha, hs⟩))
      | iterateNext =>
        cases hn : Builtin.nextCall? e.site.machine.frames with
        | none => exact .inl (by simp only [hq, Builtin.stackEvent, hn])
        | some call =>
          obtain ⟨element, callee⟩ := call
          by_cases hk : e.site.machine.table.contains callee = true
          · exact .inr (.inl ⟨callee, some element, Key.iterateNext, hk,
              .inr ⟨ha, rfl, element, rfl, hn⟩⟩)
          · exact .inl (by simp only [hq, Builtin.stackEvent, hn, if_neg hk])

/-- What comes of a return: it fails exactly when its key is not registered or is the fault
state. -/
theorem Pops.outcome {e e' : Execution ρ} {top : Frame} {rest : Stack} (h : e.Pops top rest)
    (sound : e.site.Sound) (hnext : e.next = .inl e') :
    ∃ go, e.focus = .step go ∧
      e'.site.machine.frames = Builtin.delivered top.result rest ∧
      (∀ g, e.site.machine.table.get? top.returnKey = some g → top.returnKey ≠ Key.error →
        e'.site.machine.current = g ∧ e'.site.machine.progressed = true ∧
          e'.focus = go (.ok true)) ∧
      (e.site.machine.table.get? top.returnKey = none →
        e'.site.machine.current = e.site.machine.current ∧
          e'.focus = go (.error (.invoke e.site.machine.name e.site.machine.current.key
            (Builtin.returnError e.site.machine.name rest
              (.unknownKey top.returnKey e.site.machine.name))))) ∧
      (top.returnKey = Key.error →
        e'.site.machine.current = e.site.machine.current ∧
          e'.focus = go (.error (.invoke e.site.machine.name e.site.machine.current.key
            (Builtin.returnError e.site.machine.name rest
              (.enterError e.site.machine.current.key))))) := by
  obtain ⟨⟨go, hf⟩, -⟩ := activated?_eq_some_iff.mp h.1
  rw [next_of_builtin hf h.1 rfl] at hnext
  cases hnext
  have hbegun : e.site.begun.machine.frames = top :: rest := h.2
  refine ⟨go, hf, (Builtin.pop_leads hbegun).frames_eq, ?_, ?_, ?_⟩
  · intro g hg hne
    rw [Builtin.pop_of_listed sound.begun rfl h.2 hg hne]
    exact ⟨rfl, rfl, rfl⟩
  · intro hk
    rw [Builtin.pop_of_unknown sound.begun rfl h.2 hk]
    exact ⟨rfl, rfl⟩
  · intro he
    rw [Builtin.pop_of_fault sound.begun rfl h.2 he]
    exact ⟨rfl, rfl⟩

end Execution

end StateEngine
