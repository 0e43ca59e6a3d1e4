import StateEngine.Proofs.Accounting
import StateEngine.Proofs.Standing

/-!
# Done for good

A machine that is done bears a mark. As long as it bears one, every transition but a reset is
refused, and no activation can take the mark away, for none begins where a machine is done. So only
a reset leads out of completion.
-/

namespace StateEngine

variable {ρ : Type}

namespace Op

/-- A request that is to end with a transition and does not insist on it. -/
def Attempts : Op → Prop
  | .move how _ => how ≠ .reset
  | .call .. | .giveBack _ => True
  | _ => False

/-- The answer to an attempt says that no transition was made. -/
def Refused : (op : Op) → op.Answer → Prop
  | .move .., answer => ∃ error, answer = .error error
  | .call .., answer => ∃ error, answer = .error error
  | .giveBack _, answer => ∃ error, answer = .error error
  | _, _ => False

end Op

namespace Site

theorem move_refused {s : Site ρ} (hp : s.machine.progressed = true) {how : Move}
    (hr : how ≠ .reset) (target : Target) : ∃ error, s.move how target = .error error := by
  cases hm : s.move how target with
  | error error => exact ⟨error, rfl⟩
  | ok s' =>
    obtain ⟨h, -, ha, -⟩ := move_eq_ok_iff.mp hm
    rw [ha.1 hr] at hp
    cases hp

/-- A machine that bears a mark refuses every attempt at a transition. -/
theorem attempt_refused {s : Site ρ} (hp : s.machine.progressed = true) {op : Op}
    (h : op.Attempts) : op.Refused (s.answer op).1 := by
  cases op with
  | move how target =>
    obtain ⟨error, hm⟩ := move_refused hp h target
    exact ⟨error, by rw [answer, hm]; rfl⟩
  | call callee argument returnKey =>
    exact (Concludes.of_call s s.machine.frames callee argument returnKey).refused hp
  | giveBack value => exact (Concludes.of_giveBack s value).refused hp
  | _ => exact h.elim

theorem transited?_of_refused {r : Result ρ Unit} (h : ∃ error, r.1 = .error error) :
    transited? r = none := by
  obtain ⟨error, he⟩ := h
  rw [transited?, he]

theorem committed?_of_marked {s : Site ρ} (hp : s.machine.progressed = true) {op : Op}
    (hr : ¬ op.Resets) : s.committed? op = none := by
  cases op with
  | move how target =>
    have hreset : how ≠ .reset := fun heq => hr (heq ▸ trivial)
    obtain ⟨error, hm⟩ := move_refused hp hreset target
    rw [committed?, hm]
  | call callee argument returnKey =>
    exact transited?_of_refused
      ((Concludes.of_call s s.machine.frames callee argument returnKey).refused hp)
  | giveBack value => exact transited?_of_refused ((Concludes.of_giveBack s value).refused hp)
  | _ => rfl

/-- A request leaves the state of a marked machine and its account alone, unless it resets the
machine or edits the history. -/
theorem Did.kept {s s' : Site ρ} {op : Op} (h : s.Did op s') (hp : s.machine.progressed = true)
    (hr : ¬ op.Resets) (he : ¬ op.EditsHistory) :
    s'.machine.current = s.machine.current ∧ s'.machine.account = s.machine.account := by
  cases h with
  | nothing | noted | attached => exact ⟨rfl, rfl⟩
  | edited _ hedit => exact absurd hedit he
  | @moved how target g _ ha =>
    have hreset : how ≠ .reset := fun heq => hr (heq ▸ trivial)
    rw [ha.1 hreset] at hp
    cases hp
  | stacked _ hl =>
    cases hl with
    | stays => exact ⟨rfl, rfl⟩
    | enters _ ha =>
      have hunmarked : s.machine.progressed = false := ha.1 nofun
      rw [hunmarked] at hp
      cases hp

end Site

namespace Execution

/-- No activation begins where a machine is done. -/
theorem activated?_of_done {e : Execution ρ} (hdone : e.site.machine.current.key = Key.done) :
    e.activated? = none := by
  cases ha : e.activated? with
  | none => rfl
  | some b =>
    obtain ⟨-, hd, -⟩ := activated?_eq_some_iff.mp ha
    exact absurd hdone (Machine.demand_eq_true_iff.mp hd).1

theorem next_of_done {e : Execution ρ} (hdone : e.site.machine.current.key = Key.done)
    {go : Except MachineError Bool → Program ρ} (hf : e.focus = .step go) :
    e.next = .inl { e with focus := go (.ok false) } := by
  simp only [next, hf, enterStep, Machine.demand_eq_false_iff.mpr (.inl hdone)]

theorem committed?_of_done {e : Execution ρ} (hdone : e.site.machine.current.key = Key.done)
    (hp : e.site.machine.progressed = true) (hr : ¬ e.Resets) : e.committed? = none := by
  unfold committed?
  cases hf : e.focus with
  | perform op go =>
    simp only [Resets, hf] at hr
    exact Site.committed?_of_marked hp hr
  | step go => simp only [activated?_of_done hdone, Option.bind_none]
  | _ => rfl

theorem Deed.kept {e : Execution ρ} {s' : Site ρ} (h : e.Deed s')
    (hdone : e.site.machine.current.key = Key.done) (hp : e.site.machine.progressed = true)
    (hr : ¬ e.Resets) (hedit : ¬ e.EditsHistory) :
    s'.machine.current = e.site.machine.current ∧
      s'.machine.account = e.site.machine.account := by
  cases h with
  | idle | wrapped => exact ⟨rfl, rfl⟩
  | performed hf hd =>
    simp only [Resets, hf] at hr
    simp only [EditsHistory, hf] at hedit
    exact hd.kept hp hr hedit
  | activated ha =>
    rw [activated?_of_done hdone] at ha
    cases ha

/-- What stays while a machine that is done is not reset. -/
structure Rests (first : Execution ρ) (past : List (Execution ρ)) (e : Execution ρ) : Prop where
  current : e.site.machine.current = first.site.machine.current
  account : e.site.machine.account = first.site.machine.account
  journal : e.site.journal = first.site.journal ++ past.reverse.flatMap written

namespace Rests

variable {first e : Execution ρ} {past : List (Execution ρ)}

theorem done (h : Rests first past e) (hdone : first.site.machine.current.key = Key.done) :
    e.site.machine.current.key = Key.done := by
  rw [h.current]
  exact hdone

theorem marked (h : Rests first past e) (hp : first.site.machine.progressed = true) :
    e.site.machine.progressed = true :=
  (congrArg Account.progressed h.account).trans hp

end Rests

theorem Run.rests {first e : Execution ρ} {past : List (Execution ρ)} (run : Run first past e)
    (hdone : first.site.machine.current.key = Key.done)
    (hp : first.site.machine.progressed = true) (hr : ∀ x ∈ past, ¬ x.Resets)
    (hedit : ∀ x ∈ past, ¬ x.EditsHistory) : Rests first past e := by
  have journal_cons : ∀ (x : Execution ρ) (past : List (Execution ρ)),
      (x :: past).reverse.flatMap written = past.reverse.flatMap written ++ x.written := by
    intro x past
    rw [List.reverse_cons, List.flatMap_append, List.flatMap_singleton]
  induction run with
  | start => exact ⟨rfl, rfl, (List.append_nil _).symm⟩
  | @step past x e' _ _ next ih =>
    obtain ⟨hrx, hr⟩ := List.forall_mem_cons.mp hr
    obtain ⟨heditx, hedit⟩ := List.forall_mem_cons.mp hedit
    have hx := ih hr hedit
    obtain ⟨hcurrent, haccount⟩ :=
      (next_deed next).kept (hx.done hdone) (hx.marked hp) hrx heditx
    refine ⟨hcurrent.trans hx.current, haccount.trans hx.account, ?_⟩
    rw [next_journal next, committed?_of_done (hx.done hdone) (hx.marked hp) hrx, hx.journal,
      journal_cons, List.append_assoc]
    exact congrArg _ (congrArg _ (List.append_nil _))
  | @again past x outcome p _ next ih =>
    have hx := ih (List.forall_mem_cons.mp hr).2 (List.forall_mem_cons.mp hedit).2
    refine ⟨hx.current, hx.account, ?_⟩
    rw [journal_cons, written_of_ended next, List.append_nil]
    exact hx.journal
  | meanwhile shelf clock _ _ ih => exact ⟨(ih hr hedit).1, (ih hr hedit).2, (ih hr hedit).3⟩

/-- Whatever is asked of a machine that is done, short of a reset: it stays done, invokes nothing,
makes no transition and tells no observer of one. Every step finds nothing to do, and every attempt
at a transition is refused. -/
theorem Run.done_for_good {s : Site ρ} {p : Program ρ} {before past : List (Execution ρ)}
    {e₀ e : Execution ρ} (born : s.Born) (reached : Run (.start s p) before e₀)
    (hdone : e₀.site.machine.isDone = true) (run : Run e₀ past e)
    (hreset : ∀ x ∈ past, ¬ x.Resets) (hedit : ∀ x ∈ past, ¬ x.EditsHistory) :
    e.site.machine.isDone = true ∧
      e.site.machine.steps = e₀.site.machine.steps ∧
      e.site.machine.history = e₀.site.machine.history ∧
      e.site.journal = e₀.site.journal ++ past.reverse.flatMap written ∧
      ∀ x ∈ past, x.activated? = none ∧ x.committed? = none ∧
        (∀ go, x.focus = .step go → x.next = .inl { x with focus := go (.ok false) }) ∧
        ∀ op go, x.focus = .perform op go → op.Attempts → op.Refused (x.site.answer op).1 := by
  have hkey : e₀.site.machine.current.key = Key.done := by simpa [Machine.isDone] using hdone
  have hp := (reached.upright born.upright).marked hkey
  have hrests := run.rests hkey hp hreset hedit
  refine ⟨by simpa [Machine.isDone] using hrests.done hkey, congrArg Account.steps hrests.account,
    congrArg Account.history hrests.account, hrests.journal, fun x hx => ?_⟩
  obtain ⟨earlier, hrun, hsub⟩ := run.of_mem hx
  have hthen := hrun.rests hkey hp (fun y hy => hreset y (hsub hy)) fun y hy => hedit y (hsub hy)
  exact ⟨activated?_of_done (hthen.done hkey),
    committed?_of_done (hthen.done hkey) (hthen.marked hp) (hreset x hx),
    fun go hf => next_of_done (hthen.done hkey) hf,
    fun op go _ ha => Site.attempt_refused (hthen.marked hp) ha⟩

/-- A machine that is done is watched, sent elsewhere, called and stepped. The refused call leaves its
frame, and the observer hears of nothing. -/
theorem done_for_good_under_attempts : ∃ (past : List (Execution Unit)) (e₀ e : Execution Unit),
    Run e₀ past e ∧ e₀.site.machine.isDone = true ∧ past.length = 4 ∧
      e.site.machine.isDone = true ∧ e.site.machine.observers = ["watcher"] ∧
      e.site.machine.frames.length = 2 ∧ e.site.journal = [] ∧
      ∀ x ∈ past, x.activated? = none ∧ x.committed? = none := by
  let attempts : Program Unit := .perform (.observe "watcher") fun _ =>
    .perform (.move .transit (.key Key.pop)) fun _ =>
      .perform (.call Key.pop (some .unit) Key.done) fun _ => .step fun _ => .done ()
  let p : Program Unit := .perform (.move .select (.key Key.done)) fun _ => attempts
  obtain ⟨⟨before, e₀⟩, hbefore, hdone, ⟨past, e⟩, hforward, hlength, hobservers, hframes, hjournal,
      hreset, hedit⟩ : ∃ r, forward 1 (.start (.fresh .stack) p) = some r ∧
        r.2.site.machine.isDone = true ∧ ∃ r', forward 4 r.2 = some r' ∧ r'.1.length = 4 ∧
          r'.2.site.machine.observers = ["watcher"] ∧ r'.2.site.machine.frames.length = 2 ∧
          r.2.site.journal ++ r'.1.reverse.flatMap written = [] ∧
          (∀ x ∈ r'.1, ¬ x.Resets) ∧ ∀ x ∈ r'.1, ¬ x.EditsHistory := by
    refine ⟨_, rfl, rfl, _, rfl, rfl, rfl, rfl, rfl, ?_, ?_⟩
    · simp only [List.forall_mem_cons]
      exact ⟨id, nofun, id, id, fun _ hx => absurd hx List.not_mem_nil⟩
    · simp only [List.forall_mem_cons]
      exact ⟨id, id, id, id, fun _ hx => absurd hx List.not_mem_nil⟩
  have run : Run e₀ past e := run_forward hforward
  obtain ⟨hdone', -, -, hjournal', hnothing⟩ := Run.done_for_good (Site.fresh_born .stack)
    (run_forward hbefore) hdone run hreset hedit
  exact ⟨past, e₀, e, run, hdone, hlength, hdone', hobservers, hframes, hjournal'.trans hjournal,
    fun x hx => ⟨(hnothing x hx).1, (hnothing x hx).2.1⟩⟩

end Execution

end StateEngine
