import StateEngine.Proofs.Deed

/-!
# Transitions and what is written down of them

A request that can make a transition answers whether it did, and a built-in state ends with one or
fails. `committed?` reads off each moment of a run which transition it makes; a transition leaves its
mark on the machine, and the journal gains what the observers are told of it and nothing else, apart
from what programs write themselves.
-/

namespace StateEngine

variable {ρ : Type}

/-- The request that a program makes first. -/
def Program.request? : Program ρ → Option Op
  | .perform op _ => some op
  | _ => none

/-- What a request writes down by hand. -/
def Op.written : Op → List Entry
  | .write entry => [entry]
  | _ => []

namespace Site

/-- The transit that an operation has ended with, if it has not failed. -/
def transited? (r : Result ρ Unit) : Option (Move × Handle) :=
  match r.1 with
  | .ok () => some (.transit, r.2.machine.current)
  | .error _ => none

/-- The transition that a request makes: how a state is entered, and which. -/
def committed? (s : Site ρ) : Op → Option (Move × Handle)
  | .move how target =>
    match s.move how target with
    | .ok s' => some (how, s'.machine.current)
    | .error _ => none
  | .call callee argument returnKey => transited? (s.call callee argument returnKey)
  | .giveBack value => transited? (s.giveBack value)
  | _ => none

/-- What the observers of a machine write down when it makes a transition. -/
def told (s : Site ρ) : Option (Move × Handle) → List Entry
  | some (.transit, h) =>
    s.machine.observers.map fun o => .notified o s.machine.current.key h.key
  | _ => []

/-- An operation that has written to the frames and then made a transit or failed. -/
inductive Concludes (s : Site ρ) : Result ρ Unit → Prop where
  | entered (frames : Stack) {h : Handle} : s.Admits .transit h →
      Concludes s (.ok (), (s.withFrames frames).entered .transit h)
  | failed (frames : Stack) (error : MachineError) :
      Concludes s (.error error, s.withFrames frames)

namespace Concludes

theorem of_transit (s : Site ρ) (frames : Stack) (h : Handle) :
    s.Concludes ((s.withFrames frames).settle ((s.withFrames frames).transit h)) := by
  cases ht : (s.withFrames frames).transit h with
  | error error => exact .failed frames error
  | ok s' =>
    obtain ⟨ha, rfl⟩ := transit_eq_ok_iff.mp ht
    exact .entered frames ha

theorem of_transitTo (s : Site ρ) (frames : Stack) (key : Key) :
    s.Concludes ((s.withFrames frames).settle ((s.withFrames frames).transitTo key)) := by
  cases ht : (s.withFrames frames).transitTo key with
  | error error => exact .failed frames error
  | ok s' =>
    obtain ⟨h, -, ha, rfl⟩ := move_eq_ok_iff.mp ht
    exact .entered frames ha

theorem of_call (s : Site ρ) (frames : Stack) (callee : Key) (argument : Option Value)
    (returnKey : Key) : s.Concludes ((s.withFrames frames).call callee argument returnKey) := by
  unfold call
  cases (s.withFrames frames).machine.decode callee with
  | error error => exact .failed frames error
  | ok h => exact of_transit s (.opened returnKey argument :: frames) h

theorem of_giveBack (s : Site ρ) (value : Value) : s.Concludes (s.giveBack value) := by
  unfold giveBack
  cases hw : s.onTop (writeResult value) with
  | error error => exact .failed s.machine.frames error
  | ok s₁ =>
    obtain ⟨frames, -, rfl⟩ := onTop_touches (fun _ _ => Frame.Persists.writeResult) hw
    exact of_transitTo s frames Key.pop

theorem progressed {s : Site ρ} {r : Result ρ Unit} (h : s.Concludes r) {c : Move × Handle}
    (hc : transited? r = some c) : r.2.machine.progressed = true := by
  cases h with
  | entered => rfl
  | failed => cases hc

/-- A marked machine makes no transit. -/
theorem refused {s : Site ρ} {r : Result ρ Unit} (h : s.Concludes r)
    (hp : s.machine.progressed = true) : ∃ error, r.1 = .error error := by
  cases h with
  | entered _ ha => exact absurd (ha.1 nofun) (by rw [hp]; nofun)
  | failed _ error => exact ⟨error, rfl⟩

theorem journal_eq {s : Site ρ} {r : Result ρ Unit} (h : s.Concludes r) :
    r.2.journal = s.journal ++ s.told (transited? r) := by
  cases h with
  | entered => rfl
  | failed => exact (List.append_nil _).symm

end Concludes

theorem progressed_of_committed {s : Site ρ} {op : Op} {c : Move × Handle}
    (h : s.committed? op = some c) : (s.answer op).2.machine.progressed = true := by
  cases op with
  | move how target =>
    simp only [committed?] at h
    cases hm : s.move how target with
    | error error =>
      rw [hm] at h
      cases h
    | ok s' =>
      obtain ⟨g, -, -, rfl⟩ := move_eq_ok_iff.mp hm
      simp only [answer, hm]
      rfl
  | call callee argument returnKey =>
    exact (Concludes.of_call s s.machine.frames callee argument returnKey).progressed h
  | giveBack value => exact (Concludes.of_giveBack s value).progressed h
  | _ => cases h

theorem journal_settle {s : Site ρ} {r : Except MachineError (Site ρ)}
    (h : ∀ s', r = .ok s' → s'.journal = s.journal) : (s.settle r).2.journal = s.journal := by
  cases r with
  | error e => rfl
  | ok s' => exact h s' rfl

theorem journal_onTop {s s' : Site ρ} {f : Frame → Except MachineError Frame}
    (h : s.onTop f = .ok s') : s'.journal = s.journal := by
  unfold onTop at h
  split at h
  · cases h
  · split at h
    · cases h
      rfl
    · cases h

theorem journal_onFrame {s s' : Site ρ} {depth : Nat} {f : Frame → Except MachineError Frame}
    (h : s.onFrame depth f = .ok s') : s'.journal = s.journal := by
  unfold onFrame at h
  split at h
  · cases h
  · split at h
    · cases h
      rfl
    · cases h

/-- A request adds to the journal what it writes by hand, or what observers are told of the
transition that it makes. -/
theorem journal_answer (s : Site ρ) (op : Op) :
    (s.answer op).2.journal = s.journal ++ (op.written ++ s.told (s.committed? op)) := by
  have silent : ∀ {journal : List Entry}, journal = s.journal → journal = s.journal ++ [] :=
    fun h => h.trans (List.append_nil _).symm
  cases op with
  | inspect | fetch | keep | observe | clearHistory | limitHistory | recordDirectly | resetStack =>
    exact silent rfl
  | write entry => rfl
  | move how target =>
    simp only [answer, committed?]
    cases hm : s.move how target with
    | error error => exact silent rfl
    | ok s' =>
      obtain ⟨g, -, -, rfl⟩ := move_eq_ok_iff.mp hm
      cases how <;> rfl
  | call callee argument returnKey =>
    exact (Concludes.of_call s s.machine.frames callee argument returnKey).journal_eq
  | giveBack value => exact (Concludes.of_giveBack s value).journal_eq
  | attach h =>
    simp only [answer, attach]
    split
    · rename_i r hr
      split at hr
      · cases hr
      · split at hr
        · cases hr
        · cases hr
          exact silent rfl
    · exact silent rfl
  | putResult value | bindVar name value => exact silent (journal_settle fun _ => journal_onTop)
  | copyVar t source target =>
    refine silent (journal_settle fun s' h => ?_)
    unfold copyVar at h
    split at h
    · cases h
    · exact journal_onTop h
  | putResultAt depth value | bindVarAt depth name value =>
    exact silent (journal_settle fun _ => journal_onFrame)
  | unbindVarAt depth name =>
    simp only [answer, unbindVarAt]
    split <;> exact silent rfl
  | updateVar t name f =>
    simp only [answer, updateVar]
    split <;> exact silent rfl
  | rebindVar name value =>
    simp only [answer, rebindVar]
    split <;> exact silent rfl

end Site

/-- A built-in state writes to the frames and makes a transit, or fails. -/
theorem Behaviour.builtin_concludes {b : Behaviour ρ} {act : Site ρ → Site.Result ρ Unit}
    (hb : b.builtin? = some act) (s : Site ρ) : s.Concludes (act s) := by
  cases b with
  | constant | routine => cases hb
  | pop =>
    cases hb
    unfold Builtin.pop
    split
    · exact .failed s.machine.frames _
    · rename_i last _
      simp only
      cases ht : (s.withFrames []).transitTo last.returnKey with
      | error error => exact .failed [] _
      | ok s' =>
        obtain ⟨h, -, ha, rfl⟩ := Site.move_eq_ok_iff.mp ht
        exact .entered [] ha
    · exact .of_transitTo s _ _
  | iterate =>
    cases hb
    unfold Builtin.iterate
    split
    · exact .failed s.machine.frames _
    · simp only
      split
      · exact .of_transitTo s _ _
      · exact .failed _ _
  | iterateNext =>
    cases hb
    unfold Builtin.iterateNext
    split
    · exact .failed s.machine.frames _
    · split
      · exact .of_transitTo s s.machine.frames _
      · simp only
        split
        · exact .failed _ _
        · exact .of_call s _ _ _ _

namespace Execution

/-- The transition that is made at this moment, by a request or by a built-in state. -/
def committed? (e : Execution ρ) : Option (Move × Handle) :=
  match e.focus with
  | .perform op _ => e.site.committed? op
  | .step _ => e.activated?.bind fun b => b.builtin?.bind fun act =>
      Site.transited? (act e.site.begun)
  | _ => none

/-- What the program writes down by hand at this moment. -/
def written (e : Execution ρ) : List Entry :=
  match e.focus with
  | .perform op _ => op.written
  | _ => []

/-- A step that invokes nothing leaves the site alone. -/
theorem site_of_not_activated {e e' : Execution ρ} {go : Except MachineError Bool → Program ρ}
    (hf : e.focus = .step go) (ha : e.activated? = none) (next : e.next = .inl e') :
    e'.site = e.site := by
  have hd := next_deed next
  generalize e'.site = s' at hd
  cases hd with
  | idle => rfl
  | performed h | wrapped h =>
    rw [hf] at h
    cases h
  | activated h =>
    rw [ha] at h
    cases h

/-- A transition marks the machine. -/
theorem progressed_of_committed {e e' : Execution ρ} {c : Move × Handle}
    (next : e.next = .inl e') (h : e.committed? = some c) : e'.site.machine.progressed = true := by
  cases hf : e.focus with
  | done | fail | panic | wrap | go | finish =>
    rw [committed?, hf] at h
    cases h
  | perform op go =>
    simp only [committed?, hf] at h
    simp only [Execution.next, hf] at next
    cases next
    exact Site.progressed_of_committed h
  | step go =>
    simp only [committed?, hf] at h
    obtain ⟨b, ha, h⟩ := Option.bind_eq_some_iff.mp h
    obtain ⟨act, hb, h⟩ := Option.bind_eq_some_iff.mp h
    rw [next_of_builtin hf ha hb] at next
    cases next
    exact (Behaviour.builtin_concludes hb e.site.begun).progressed h

/-- The site that a moment leaves, by what the program does at this moment. -/
inductive Yields (e : Execution ρ) : Site ρ → Prop where
  | idle : e.focus.request? = none → e.activated? = none → Yields e e.site
  | performed {op : Op} {go : op.Answer → Program ρ} : e.focus = .perform op go →
      Yields e (e.site.answer op).2
  | wrapped {key : Key} {body : Program ρ} {go : Handle → Program ρ} :
      e.focus = .wrap key body go → Yields e { e.site with
        store := (e.site.store.alloc { owner := none, behaviour := .routine key body }).2 }
  | invoked {b : Behaviour ρ} : e.activated? = some b → b.builtin? = none →
      Yields e e.site.begun
  | acted {b : Behaviour ρ} {act : Site ρ → Site.Result ρ Unit} : e.activated? = some b →
      b.builtin? = some act → Yields e (act e.site.begun).2

theorem next_yields {e e' : Execution ρ} (next : e.next = .inl e') : e.Yields e'.site := by
  cases hf : e.focus with
  | panic message => simp [Execution.next, hf] at next
  | done | fail =>
    have hidle : e.Yields e.site := .idle (by rw [hf]; rfl) (by rw [activated?, hf])
    simp only [Execution.next, hf] at next
    split at next
    · cases next
    · cases next
      exact hidle
  | go | finish =>
    have hidle : e.Yields e.site := .idle (by rw [hf]; rfl) (by rw [activated?, hf])
    simp only [Execution.next, hf] at next
    cases next
    exact hidle
  | wrap key body go =>
    simp only [Execution.next, hf] at next
    cases next
    exact .wrapped hf
  | perform op go =>
    simp only [Execution.next, hf] at next
    cases next
    exact .performed hf
  | step go =>
    cases ha : e.activated? with
    | none =>
      rw [site_of_not_activated hf ha next]
      exact .idle (by rw [hf]; rfl) ha
    | some b =>
      cases hb : b.builtin? with
      | some act =>
        rw [next_of_builtin hf ha hb] at next
        cases next
        exact .acted ha hb
      | none =>
        rw [next_of_activated hf ha] at next
        cases b with
        | pop | iterate | iterateNext => cases hb
        | constant | routine =>
          cases next
          exact .invoked ha rfl

theorem request?_of_activated {e : Execution ρ} {b : Behaviour ρ} (ha : e.activated? = some b) :
    e.focus.request? = none := by
  obtain ⟨⟨go, hf⟩, -⟩ := activated?_eq_some_iff.mp ha
  rw [hf]
  rfl

theorem committed?_of_idle {e : Execution ρ} (hop : e.focus.request? = none)
    (ha : e.activated? = none) : e.committed? = none := by
  unfold committed?
  split
  · rename_i op go hf
    rw [hf] at hop
    cases hop
  · rw [ha]
    rfl
  · rfl

theorem committed?_of_activated {e : Execution ρ} {b : Behaviour ρ} (ha : e.activated? = some b) :
    e.committed? = b.builtin?.bind fun act => Site.transited? (act e.site.begun) := by
  obtain ⟨⟨go, hf⟩, -⟩ := activated?_eq_some_iff.mp ha
  simp only [committed?, hf, ha, Option.bind_some]

theorem written_of_no_request {e : Execution ρ} (hop : e.focus.request? = none) :
    e.written = [] := by
  unfold written
  split
  · rename_i op go hf
    rw [hf] at hop
    cases hop
  · rfl

/-- The journal gains what programs write by hand and what the observers are told of a transition,
and nothing else. -/
theorem next_journal {e e' : Execution ρ} (next : e.next = .inl e') :
    e'.site.journal = e.site.journal ++ (e.written ++ e.site.told e.committed?) := by
  have hy := next_yields next
  generalize e'.site = s' at hy
  cases hy with
  | performed hf =>
    simp only [committed?, written, hf]
    exact e.site.journal_answer _
  | idle hop ha =>
    rw [committed?_of_idle hop ha, written_of_no_request hop]
    exact (List.append_nil _).symm
  | wrapped hf =>
    simp only [committed?, written, hf]
    exact (List.append_nil _).symm
  | invoked ha hb =>
    rw [committed?_of_activated ha, hb, written_of_no_request (request?_of_activated ha)]
    exact (List.append_nil _).symm
  | acted ha hb =>
    rw [committed?_of_activated ha, hb, written_of_no_request (request?_of_activated ha)]
    exact (Behaviour.builtin_concludes hb e.site.begun).journal_eq

theorem committed?_of_ended {e : Execution ρ} {outcome : Outcome ρ}
    (h : e.next = .inr outcome) : e.committed? = none := by
  rcases ended_cases h with ⟨_, -, hf, -⟩ | ⟨_, -, hf, -⟩ | ⟨_, -, hf⟩ <;> rw [committed?, hf]

theorem written_of_ended {e : Execution ρ} {outcome : Outcome ρ}
    (h : e.next = .inr outcome) : e.written = [] := by
  rcases ended_cases h with ⟨_, -, hf, -⟩ | ⟨_, -, hf, -⟩ | ⟨_, -, hf⟩ <;> rw [written, hf]

end Execution

end StateEngine
