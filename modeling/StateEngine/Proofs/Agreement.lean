import StateEngine.Proofs.Answering
import StateEngine.Proofs.Standing

/-!
# The two drivers agree

One driver steps until a step reports no transition, the other until the machine is done. A step
that reports no transition leaves a machine that has no state to invoke, and there every further
step is idle. So both drivers take the same steps: the second never answers where the first stops
short of completion, and they give the same answer on the same machine everywhere else.
-/

namespace StateEngine

variable {ρ : Type}

/-- What no moment can break holds on. -/
theorem Execution.Reaches.keeps {P : Machine → Prop}
    (keeps : ∀ {m m' : Machine}, m.Turn m' → P m → P m') {e e' : Execution ρ} (h : e.Reaches e')
    (hp : P e.site.machine) : P e'.site.machine := by
  induction h with
  | refl => exact hp
  | tail _ hmove ih => exact keeps (next_deed hmove).turn ih

/-- The answer of a machine that has nothing to do. -/
def Request.atRest : (request : Request) → request.Answer
  | .step => .ok false
  | .go => .ok ()
  | .finish => .ok ()

namespace Site

/-- Requests that are made one after another are answered so. -/
inductive AnswersInTurn : Site ρ → List ((request : Request) × request.Answer) → Site ρ → Prop where
  | nil {s : Site ρ} : AnswersInTurn s [] s
  | cons {s s₁ s' : Site ρ} {request : Request} {answer : request.Answer}
      {rest : List ((request : Request) × request.Answer)} : s.Answers request answer s₁ →
      AnswersInTurn s₁ rest s' → AnswersInTurn s (⟨request, answer⟩ :: rest) s'

variable {s s' : Site ρ}

theorem demand_of_done (hdone : s.machine.isDone = true) : s.machine.demand = .ok false :=
  Machine.demand_eq_false_iff.mpr (.inl (by simpa [Machine.isDone] using hdone))

namespace Steps

theorem unique {r r' : Except MachineError Bool} {s'' : Site ρ} (h : s.Steps r s')
    (h' : s.Steps r' s'') : r' = r ∧ s'' = s' :=
  h.answers.unique h'.answers

theorem upright {r : Except MachineError Bool} (h : s.Steps r s') (hs : s.machine.Upright) :
    s'.machine.Upright :=
  (h.answers (fun _ => .fail .emptyStack) []).keeps Machine.Turn.upright hs

theorem underway {r : Except MachineError Bool} (h : s.Steps r s') (hs : s.machine.Underway) :
    s'.machine.Underway :=
  (h.answers (fun _ => .fail .emptyStack) []).keeps Machine.Turn.underway hs

theorem idle_or_unmarked {r : Except MachineError Bool} (h : s.Steps r s') (hr : r = .ok false) :
    s.machine.demand = .ok false ∧ s' = s ∨
      s.machine.demand = .ok true ∧ s'.machine.progressed = false := by
  cases h with
  | refused | failed => cases hr
  | idle hd => exact .inl ⟨hd, rfl⟩
  | returned hd => exact .inr ⟨hd, by simpa using hr⟩

/-- Where a step has reported no transition, the next finds nothing to invoke. -/
theorem demand_eq_false (h : s.Steps (.ok false) s') (hs : s.machine.Upright) :
    s'.machine.demand = .ok false := by
  rcases h.idle_or_unmarked rfl with ⟨hd, rfl⟩ | ⟨hd, hp⟩
  · exact hd
  · have hstart : s.machine.Underway :=
      fun hk => absurd hk (Machine.demand_eq_true_iff.mp hd).2.2.1
    have hunderway : s'.machine.Underway := h.underway hstart
    refine Machine.demand_eq_false_iff.mpr (.inr ⟨(h.upright hs).not_fault, fun hk => ?_, hp⟩)
    rw [hunderway hk] at hp
    cases hp

/-- A step that does not report that nothing moved was not taken on a machine that is done. -/
theorem not_done {r : Except MachineError Bool} (h : s.Steps r s') (hr : r ≠ .ok false) :
    s.machine.isDone = false := by
  cases hdone : s.machine.isDone with
  | false => rfl
  | true => exact absurd ((idle (demand_of_done hdone)).unique h).1 hr

end Steps

namespace Finishes

variable {r : Except MachineError Unit}

/-- On a machine that has nothing to do, steps come to an end only if it is done. -/
theorem done_of_idle (h : s.Finishes r s') (hd : s.machine.demand = .ok false) :
    s.machine.isDone = true := by
  induction h with
  | done hdone => exact hdone
  | failed _ hs =>
    obtain ⟨hr, -⟩ := (Steps.idle hd).unique hs
    cases hr
  | on _ hs _ ih =>
    obtain ⟨-, rfl⟩ := (Steps.idle hd).unique hs
    exact ih hd

theorem eq_of_done (h : s.Finishes r s') (hdone : s.machine.isDone = true) :
    r = .ok () ∧ s' = s := by
  cases h with
  | done => exact ⟨rfl, rfl⟩
  | failed hnot | on hnot =>
    rw [hdone] at hnot
    cases hnot

theorem goes (h : s.Finishes r s') (hs : s.machine.Upright) :
    s.Goes r s' ∧ (r = .ok () → s'.machine.isDone = true) := by
  induction h with
  | done hdone => exact ⟨.rested (.idle (demand_of_done hdone)), fun _ => hdone⟩
  | failed _ hstep => exact ⟨.failed hstep, nofun⟩
  | @on s s₁ s' r moved _ hstep hrest ih =>
    cases moved with
    | true =>
      obtain ⟨hgoes, hdone⟩ := ih (hstep.upright hs)
      exact ⟨.on hstep hgoes, hdone⟩
    | false =>
      -- The step left an idle machine, so the rest can only have ended because it is done.
      have hdone := hrest.done_of_idle (hstep.demand_eq_false hs)
      obtain ⟨rfl, rfl⟩ := hrest.eq_of_done hdone
      exact ⟨.rested hstep, fun _ => hdone⟩

end Finishes

namespace Goes

variable {r : Except MachineError Unit}

theorem unique {r' : Except MachineError Unit} {s'' : Site ρ} (h : s.Goes r s')
    (h' : s.Goes r' s'') : r' = r ∧ s'' = s' :=
  h.answers.unique h'.answers

/-- The last step of a drive leaves a machine that has nothing to do. -/
theorem demand_eq_false (h : s.Goes (.ok ()) s') (hs : s.machine.Upright) :
    s'.machine.demand = .ok false := by
  generalize hr : (.ok () : Except MachineError Unit) = r at h
  induction h with
  | failed => cases hr
  | rested hstep => exact hstep.demand_eq_false hs
  | on hstep _ ih => exact ih (hstep.upright hs) hr

theorem finishes (h : s.Goes r s') (hdone : r = .ok () → s'.machine.isDone = true) :
    s.Finishes r s' := by
  induction h with
  | failed hstep => exact .failed (hstep.not_done nofun) hstep
  | @rested s s' hstep =>
    cases hnow : s.machine.isDone with
    | true =>
      obtain ⟨-, rfl⟩ := (Steps.idle (demand_of_done hnow)).unique hstep
      exact .done hnow
    | false => exact .on hnow hstep (.done (hdone rfl))
  | on hstep _ ih => exact .on (hstep.not_done nofun) hstep (ih hdone)

end Goes

theorem finishes_iff_goes (hs : s.machine.Upright) {r : Except MachineError Unit} :
    s.Finishes r s' ↔ s.Goes r s' ∧ (r = .ok () → s'.machine.isDone = true) :=
  ⟨fun h => h.goes hs, fun h => h.1.finishes h.2⟩

/-- A drive to completion comes to no end exactly when the other drive comes to none, or stops at a
machine that is not done. -/
theorem not_finishes_iff (hs : s.machine.Upright) :
    (¬ ∃ r s', s.Finishes r s') ↔
      (¬ ∃ r s', s.Goes r s') ∨ ∃ s', s.Goes (.ok ()) s' ∧ s'.machine.isDone = false := by
  constructor
  · intro hnever
    by_cases hgoes : ∃ r s', s.Goes r s'
    · obtain ⟨r, s', h⟩ := hgoes
      have hnot : ¬ (r = .ok () → s'.machine.isDone = true) :=
        fun hdone => hnever ⟨r, s', h.finishes hdone⟩
      obtain ⟨rfl, hdone⟩ := Classical.not_imp.mp hnot
      exact .inr ⟨s', h, Bool.eq_false_iff.mpr hdone⟩
    · exact .inl hgoes
  · rintro (hnever | ⟨s', h, hnot⟩) ⟨r, s'', hfinishes⟩
    · exact hnever ⟨r, s'', (hfinishes.goes hs).1⟩
    · obtain ⟨hgoes, hdone⟩ := hfinishes.goes hs
      obtain ⟨rfl, rfl⟩ := h.unique hgoes
      rw [hdone rfl] at hnot
      cases hnot

theorem answers_atRest (hd : s.machine.demand = .ok false) {request : Request}
    (hne : request ≠ .finish) : s.Answers request request.atRest s := by
  cases request with
  | step => exact (Steps.idle hd).answers
  | go => exact (Goes.rested (.idle hd)).answers
  | finish => exact absurd rfl hne

/-- A machine that has nothing to do answers steps and drives of the first kind in one way only, and
stays as it is. -/
theorem answersInTurn_iff (hd : s.machine.demand = .ok false)
    {answers : List ((request : Request) × request.Answer)} (hne : ∀ a ∈ answers, a.1 ≠ .finish) :
    s.AnswersInTurn answers s' ↔ (∀ a ∈ answers, a.2 = a.1.atRest) ∧ s' = s := by
  induction answers with
  | nil =>
    constructor
    · rintro ⟨⟩
      exact ⟨fun a ha => absurd ha List.not_mem_nil, rfl⟩
    · rintro ⟨-, rfl⟩
      exact .nil
  | cons a rest ih =>
    obtain ⟨request, answer⟩ := a
    obtain ⟨hfirst, hothers⟩ := List.forall_mem_cons.mp hne
    have hrests : s.Answers request request.atRest s := answers_atRest hd hfirst
    rw [List.forall_mem_cons]
    constructor
    · rintro (_ | ⟨hanswer, hrest⟩)
      obtain ⟨heq, rfl⟩ := hrests.unique hanswer
      obtain ⟨hall, hsame⟩ := (ih hothers).mp hrest
      exact ⟨⟨heq, hall⟩, hsame⟩
    · rintro ⟨⟨heq, hall⟩, hsame⟩
      obtain rfl : answer = request.atRest := heq
      exact .cons hrests ((ih hothers).mpr ⟨hall, hsame⟩)

/-- A drive that ends well leaves a machine that is done or unmarked, and all further steps and drives
of its kind find nothing to do and change nothing. A drive to completion ends well exactly where the
other drive ends well on a machine that is done, and fails exactly where the other fails, each time
on the same machine. So it comes to no end exactly when the other comes to none or stops short of
completion. -/
theorem Reachable.drivers_agree (h : s.Reachable) :
    (∀ s', s.Answers .go (.ok ()) s' →
      (s'.machine.isDone = true ∨ s'.machine.progressed = false) ∧
        ∀ answers s'', (∀ a ∈ answers, a.1 ≠ .finish) →
          (s'.AnswersInTurn answers s'' ↔ (∀ a ∈ answers, a.2 = a.1.atRest) ∧ s'' = s')) ∧
      (∀ s', s.Answers .finish (.ok ()) s' ↔
        s.Answers .go (.ok ()) s' ∧ s'.machine.isDone = true) ∧
      (∀ error s', s.Answers .finish (.error error) s' ↔ s.Answers .go (.error error) s') ∧
      ((¬ ∃ (r : Except MachineError Unit) (s' : Site ρ), s.Answers .finish r s') ↔
        (¬ ∃ (r : Except MachineError Unit) (s' : Site ρ), s.Answers .go r s') ∨
          ∃ s', s.Answers .go (.ok ()) s' ∧ s'.machine.isDone = false) := by
  simp only [answers_go_iff, answers_finish_iff]
  refine ⟨fun s' hgoes => ?_, fun s' => ?_, fun error s' => ?_, not_finishes_iff h.upright⟩
  · have hd := hgoes.demand_eq_false h.upright
    refine ⟨?_, fun answers s'' hne => answersInTurn_iff hd hne⟩
    rcases Machine.demand_eq_false_iff.mp hd with hdone | ⟨-, -, hp⟩
    · exact .inl (by simpa [Machine.isDone] using hdone)
    · exact .inr hp
  · rw [finishes_iff_goes h.upright]
    exact and_congr_right fun _ => ⟨fun hdone => hdone rfl, fun hdone _ => hdone⟩
  · rw [finishes_iff_goes h.upright]
    exact and_iff_left nofun

/-- A machine that has selected the one state that was added to it. -/
def withState (body : Program Unit) : Site Unit :=
  (((Site.fresh .flat).equip [("Only", body)]).answer (.move .select (.key "Only"))).2

/-- A state that is linked to completion is driven to it by both drivers. Where a state never moves
on, one driver stops and the other never answers. -/
theorem drivers_agree_on_link_and_stall :
    (∃ s', (withState (.link Key.done)).Answers .go (.ok ()) s' ∧ s'.machine.steps = 1 ∧
      (withState (.link Key.done)).Answers .finish (.ok ()) s') ∧
    (∃ s', (withState (.done ())).Answers .go (.ok ()) s' ∧ s'.machine.steps = 1) ∧
      ¬ ∃ (r : Except MachineError Unit) (s' : Site Unit),
        (withState (.done ())).Answers .finish r s' := by
  have hreachable : ∀ body, (withState body).Reachable :=
    fun body => answer_equip_reachable (Site.fresh_born .flat) [("Only", body)] trivial
  obtain ⟨s', hrun, hmoved, hdone, hsteps⟩ : ∃ s',
      Execution.run 2 (.start (withState (.link Key.done)).begun (.link Key.done)) =
        some (.finished (), s') ∧
      s'.machine.progressed = true ∧ s'.machine.isDone = true ∧ s'.machine.steps = 1 :=
    ⟨_, rfl, rfl, rfl, rfl⟩
  have hgo : (withState (.link Key.done)).Answers .go (.ok ()) s' := by
    apply Goes.answers
    exact .on (.of_run rfl rfl hrun hmoved) (.rested (.idle (demand_of_done hdone)))
  obtain ⟨s'', hrun', hmoved', hnot, hsteps'⟩ : ∃ s'',
      Execution.run 1 (.start (withState (.done ())).begun (.done ())) =
        some (.finished (), s'') ∧
      s''.machine.progressed = false ∧ s''.machine.isDone = false ∧ s''.machine.steps = 1 :=
    ⟨_, rfl, rfl, rfl, rfl⟩
  have hstalls : (withState (.done ())).Answers .go (.ok ()) s'' := by
    apply Goes.answers
    exact .rested (.of_run rfl rfl hrun' hmoved')
  obtain ⟨-, hfinish, -, -⟩ := (hreachable (.link Key.done)).drivers_agree
  obtain ⟨-, -, -, hnever⟩ := (hreachable (.done ())).drivers_agree
  exact ⟨⟨s', hgo, hsteps, (hfinish s').mpr ⟨hgo, hdone⟩⟩, ⟨s'', hstalls, hsteps'⟩,
    hnever.mpr (.inr ⟨s'', hstalls, hnot⟩)⟩

end Site

end StateEngine
