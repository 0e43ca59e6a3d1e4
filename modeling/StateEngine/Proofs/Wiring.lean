import StateEngine.Proofs.Acceptance
import StateEngine.Proofs.Answering

/-!
# Machines wired by hand

All that a builder does after its checks can be asked for one request at a time: a machine that has
been made and named gets its history, its observers and its states, and its initial state is
selected. This comes to the same as the build, and no observer is told of anything on the way.
-/

namespace StateEngine

variable {ρ : Type}

namespace Program

def observeAll : List String → Program ρ → Program ρ
  | [], next => next
  | observer :: rest, next => .perform (.observe observer) fun _ => observeAll rest next

/-- Asks for states to be taken, up to the first that is refused. -/
def attachAll : List Handle → Program ρ → Program ρ
  | [], next => next
  | h :: rest, next => .perform (.attach h) fun
    | .ok _ => attachAll rest next
    | .error e => .fail e

def selectInitial [Inhabited ρ] : Option Key → Program ρ
  | none => .done default
  | some key => .perform (.move .select (.key key)) settle

end Program

namespace Execution

theorem reaches_perform (s : Site ρ) (op : Op) (next : op.Answer → Program ρ) :
    (start s (.perform op next)).Reaches (start (s.answer op).2 (next (s.answer op).1)) :=
  .single rfl

theorem reaches_observeAll (s : Site ρ) (observers : List String) (next : Program ρ) :
    (start s (.observeAll observers next)).Reaches
      (start { s with machine := { s.machine with observers := s.machine.observers ++ observers } }
        next) := by
  induction observers generalizing s with
  | nil =>
    rw [List.append_nil]
    exact .refl
  | cons observer rest ih =>
    have hmore := ih
      { s with machine := { s.machine with observers := s.machine.observers ++ [observer] } }
    rw [List.append_assoc, List.singleton_append] at hmore
    exact (reaches_perform s (.observe observer) fun _ => .observeAll rest next).trans hmore

theorem reaches_attachAll {s s' : Site ρ} {states : List Handle}
    (h : Builder.attachAll states s = (.ok (), s')) (next : Program ρ) :
    (start s (.attachAll states next)).Reaches (start s' next) := by
  induction states generalizing s with
  | nil =>
    cases h
    exact .refl
  | cons g rest ih =>
    rw [Builder.attachAll] at h
    cases ha : s.attach g with
    | error e =>
      rw [ha] at h
      cases h
    | ok taken =>
      have hstep := reaches_perform s (.attach g) fun
        | .ok _ => .attachAll rest next
        | .error e => .fail e
      simp only [ha] at h
      simp only [Site.answer, ha] at hstep
      exact hstep.trans (ih h)

theorem reaches_selectInitial [Inhabited ρ] {b : Builder} {s s' : Site ρ}
    (h : b.enterInitial s = (.ok (), s')) :
    (start s (.selectInitial b.initial)).Reaches (start s' (.done default)) := by
  unfold Builder.enterInitial at h
  cases hi : b.initial with
  | none =>
    rw [hi] at h
    cases h
    exact .refl
  | some key =>
    rw [hi] at h
    have hstep := reaches_perform s (.move .select (.key key)) Program.settle
    rw [show s.answer (.move .select (.key key)) = (.ok (), s') from h] at hstep
    exact hstep

end Execution

namespace Builder

/-- The requests by which the machine of a builder is set up, once it is made and named. -/
def wiring [Inhabited ρ] (b : Builder) : Program ρ :=
  .perform (.limitHistory b.historyLimit) fun _ =>
    .observeAll b.observers (.attachAll b.states (.selectInitial b.initial))

/-- A machine that has been made and named, with nothing around it. -/
def named (b : Builder) (store : Store ρ) (id : MachineId) (time : Timestamp) : Site ρ where
  machine := { (Machine.create store id b.kind).1 with given := b.name }
  store := (Machine.create store id b.kind).2
  shelf := .empty
  journal := []
  clock := time

theorem reaches_outset [Inhabited ρ] (b : Builder) (store : Store ρ) (id : MachineId)
    (time : Timestamp) :
    (Execution.start (b.named store id time) b.wiring).Reaches
      (.start (b.outset store id time) (.attachAll b.states (.selectInitial b.initial))) :=
  (Execution.reaches_perform _ (.limitHistory b.historyLimit) _).trans
    (Execution.reaches_observeAll _ b.observers _)

/-- Nothing is written down when the initial state is entered. -/
theorem enterInitial_journal (b : Builder) (s : Site ρ) :
    (b.enterInitial s).2.journal = s.journal := by
  rcases b.enterInitial_enters s with heq | ⟨h, heq⟩
  · rw [heq]
  · rw [heq]
    exact List.append_nil _

section
variable [Inhabited ρ] {b : Builder} {store : Store ρ} (id : MachineId) (time : Timestamp)

/-- With a valid configuration the requests made by hand go through, and come to the site of the
build, with nothing written down. -/
theorem Valid.wiring (valid : b.Valid store) (known : ∀ h ∈ b.states, store.Knows h) :
    ∃ s s' : Site ρ, attachAll b.states (b.outset store id time) = (.ok (), s) ∧
      b.enterInitial s = (.ok (), s') ∧
      b.build store id time = (.ok s'.machine, s'.store) ∧ s'.journal = [] ∧
      ∃ fuel, Execution.run fuel (.start (b.named store id time) b.wiring) =
        some (.finished default, s') := by
  obtain ⟨s', hattach, hinitial, hbuild⟩ := valid.build_eq id time known
  have hjournal := b.enterInitial_journal (b.midway store id time b.states)
  rw [hinitial, midway, Site.takingAll_eq] at hjournal
  have hreach := ((b.reaches_outset store id time).trans
    (Execution.reaches_attachAll hattach _)).trans (Execution.reaches_selectInitial hinitial)
  have hend : Execution.run 1 (.start s' (.done default)) = some (.finished default, s') := rfl
  exact ⟨_, s', hattach, hinitial, hbuild, hjournal, Execution.run_of_reaches hreach hend⟩

/-- A build fails with the first thing that is wrong with its configuration, and succeeds if nothing
is. Then its machine is the one that comes of the same requests made by hand, and no observer has
been told of anything. -/
theorem build_accepts_valid (known : ∀ h ∈ b.states, store.Knows h) :
    (∀ e, (b.build store id time).1 = .error e ↔ ∃ taken, b.Fails store e taken) ∧
    ((∃ m, (b.build store id time).1 = .ok m) ↔ b.Valid store) ∧
    ∀ m after, b.build store id time = (.ok m, after) →
      ∃ s s' : Site ρ, attachAll b.states (b.outset store id time) = (.ok (), s) ∧
        b.enterInitial s = (.ok (), s') ∧ s'.machine = m ∧ s'.store = after ∧ s'.journal = [] ∧
        ∃ fuel, Execution.run fuel (.start (b.named store id time) b.wiring) =
          some (.finished default, s') := by
  refine ⟨fun e => build_eq_error_iff id time known, build_eq_ok_iff id time known,
    fun m after hm => ?_⟩
  have valid := (build_eq_ok_iff id time known).mp ⟨m, congrArg Prod.fst hm⟩
  obtain ⟨s, s', hattach, hinitial, hbuild, hjournal, hrun⟩ := valid.wiring id time known
  cases hm.symm.trans hbuild
  exact ⟨s, s', hattach, hinitial, rfl, rfl, hjournal, hrun⟩

end

/-- A stack machine with one state, an observer, and a built-in state to begin with. -/
def lone : Builder where
  kind := .stack
  name := some "lone"
  states := [⟨0, "A"⟩]
  initial := some Key.pop
  historyLimit := 1
  observers := ["o"]

/-- The state of it, which nobody has. -/
def loneStore : Store Unit := ⟨#[{ owner := none, behaviour := .routine "A" (.done ()) }]⟩

theorem known_lone : ∀ h ∈ lone.states, loneStore.Knows h := by
  intro h hh
  obtain rfl := List.mem_singleton.mp hh
  exact ⟨.routine "A" (.done ()), rfl, rfl⟩

theorem build_accepts_valid_lone : (∀ h ∈ lone.states, loneStore.Knows h) ∧ lone.Valid loneStore ∧
    ∃ s : Site Unit, lone.build loneStore ⟨7⟩ .epoch = (.ok s.machine, s.store) ∧ s.journal = [] ∧
      s.machine.current.key = Key.pop ∧
      ∃ fuel, Execution.run fuel (.start (lone.named loneStore ⟨7⟩ .epoch) lone.wiring) =
        some (.finished (), s) := by
  obtain ⟨-, hvalid, hwiring⟩ := build_accepts_valid ⟨7⟩ .epoch known_lone
  obtain ⟨m, after, hbuild, hcurrent⟩ : ∃ m after,
      lone.build loneStore ⟨7⟩ .epoch = (.ok m, after) ∧ m.current.key = Key.pop :=
    ⟨_, _, rfl, rfl⟩
  obtain ⟨-, s, -, -, rfl, rfl, hjournal, hrun⟩ := hwiring m after hbuild
  exact ⟨known_lone, hvalid.mp ⟨_, congrArg Prod.fst hbuild⟩, s, hbuild, hjournal, hcurrent, hrun⟩

end Builder

end StateEngine
