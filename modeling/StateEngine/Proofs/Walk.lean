import Mathlib.Data.List.Chain
import StateEngine.Proofs.Accounting

/-!
# The history as a walk

Each record leaves the state that the one before it has entered, and the last has entered the state
that the machine stands in. Records are let go at the front only, and a history that is emptied is a
walk again from wherever the machine then stands.
-/

namespace StateEngine

variable {ρ : Type}

/-- A request that writes a record of a transition that was not made. -/
def Op.RecordsDirectly : Op → Prop
  | .recordDirectly .. => True
  | _ => False

theorem Op.RecordsDirectly.edits {op : Op} (h : op.RecordsDirectly) : op.EditsHistory := by
  cases op with
  | recordDirectly => trivial
  | _ => cases h

namespace History

/-- What remains of a history to which a record is added is the end of what it held before. -/
theorem record_cases {h : History} (fits : h.records.length ≤ h.limit) (r : Record) :
    (h.records = [] ∧ (h.record r).records = [] ∧ (h.record r).dropped ≠ 0) ∨
      ∃ kept, kept <:+ h.records ∧ (h.record r).records = kept ++ [r] ∧
        ((h.record r).dropped = 0 → h.dropped = 0 ∧ kept = h.records) := by
  unfold record
  split_ifs with hl hfull
  · have hnone : h.records = [] := List.length_eq_zero_iff.mp (by omega)
    exact .inl ⟨hnone, hnone, Nat.succ_ne_zero _⟩
  · exact .inr ⟨_, List.drop_suffix 1 h.records, rfl, nofun⟩
  · exact .inr ⟨_, List.suffix_rfl, rfl, fun h0 => ⟨h0, rfl⟩⟩

theorem fits_record {h : History} (fits : h.records.length ≤ h.limit) (r : Record) :
    (h.record r).records.length ≤ (h.record r).limit := by
  unfold record
  split_ifs with hl hfull
  · exact fits
  · simp only [List.length_append, List.length_drop, List.length_singleton]
    omega
  · simp only [List.length_append, List.length_singleton]
    omega

/-- The records of a history lead one after another to `current`, and none of them was written
after the activation `steps`. -/
structure Walks (h : History) (current : Key) (steps : Nat) : Prop where
  linked : h.records.IsChain fun r next => r.target = next.source
  arrives : ∀ r, h.last? = some r → r.target = current
  sorted : (h.records.map Record.step).Pairwise (· ≤ ·)
  bounded : ∀ r ∈ h.records, r.step ≤ steps
  no_fault : ∀ r ∈ h.records, r.target ≠ Key.error
  fits : h.records.length ≤ h.limit

/-- As long as nothing was let go, the first state that was left is the one a machine starts in. -/
def Rooted (h : History) (current : Key) : Prop :=
  h.dropped = 0 → (h.records.head?.map Record.source).getD current = Key.uninitialized

theorem walks_withLimit (limit : Nat) (current : Key) (steps : Nat) :
    (withLimit limit).Walks current steps where
  linked := .nil
  arrives _ h := nomatch h
  sorted := .nil
  bounded _ h := absurd h List.not_mem_nil
  no_fault _ h := absurd h List.not_mem_nil
  fits := Nat.zero_le limit

namespace Walks

variable {h : History} {current : Key} {steps : Nat}

theorem later (walks : h.Walks current steps) {steps' : Nat} (hle : steps ≤ steps') :
    h.Walks current steps' :=
  { walks with bounded := fun r hr => Nat.le_trans (walks.bounded r hr) hle }

/-- A transition out of the state where the walk has arrived carries it on. -/
theorem record (walks : h.Walks current steps) {r : Record} (hsource : r.source = current)
    (hstep : steps ≤ r.step) (hne : r.target ≠ Key.error) :
    (h.record r).Walks r.target r.step where
  linked := by
    rcases record_cases walks.fits r with ⟨-, hnone, -⟩ | ⟨kept, hsuffix, hkept, -⟩
    · rw [hnone]
      exact .nil
    · rw [hkept]
      refine List.isChain_append.mpr ⟨walks.linked.suffix hsuffix, .singleton r, ?_⟩
      intro x hx y hy
      obtain rfl : r = y := by simpa using hy
      obtain ⟨front, hfront⟩ := hsuffix
      have hlast : h.last? = some x := by
        rw [last?, ← hfront, List.getLast?_append, Option.mem_def.mp hx, Option.some_or]
      rw [walks.arrives x hlast, hsource]
  arrives x hx := by
    rcases record_cases walks.fits r with ⟨-, hnone, -⟩ | ⟨kept, -, hkept, -⟩
    · rw [last?, hnone] at hx
      cases hx
    · rw [last?, hkept, List.getLast?_concat, Option.some.injEq] at hx
      rw [hx]
  sorted := pairwise_record walks.sorted fun x hx => Nat.le_trans (walks.bounded x hx) hstep
  bounded x hx := by
    rcases mem_records_record hx with hx | rfl
    · exact Nat.le_trans (walks.bounded x hx) hstep
    · exact Nat.le_refl _
  no_fault x hx := by
    rcases mem_records_record hx with hx | rfl
    · exact walks.no_fault x hx
    · exact hne
  fits := fits_record walks.fits r

theorem rooted (walks : h.Walks current steps) (rooted : h.Rooted current) {r : Record}
    (hsource : r.source = current) : (h.record r).Rooted r.target := by
  intro h0
  rcases record_cases walks.fits r with ⟨-, -, hne⟩ | ⟨kept, -, hkept, hall⟩
  · exact absurd h0 hne
  · obtain ⟨h0, rfl⟩ := hall h0
    have hroot := rooted h0
    rw [hkept, List.head?_append]
    cases hhead : h.records.head? with
    | none =>
      rw [hhead] at hroot
      exact hsource.trans hroot
    | some first =>
      rw [hhead] at hroot
      exact hroot

end Walks

end History

namespace Machine

/-- What a moment can do to the history of a machine, to the state it stands in and to its step
counter. The transition of an activation is recorded under the activation's own number. -/
inductive Passes (edits : Prop) (m m' : Machine) : Prop where
  | rests : m'.history = m.history → m'.current.key = m.current.key → m.steps ≤ m'.steps →
      Passes edits m m'
  | empties (limit : Nat) : edits → m'.history = .withLimit limit →
      m'.current.key = m.current.key → m'.steps = m.steps → Passes edits m m'
  | enters (r : Record) : r.source = m.current.key → r.target = m'.current.key →
      r.target ≠ Key.error → m.steps ≤ r.step → r.step = m'.steps →
      m'.history = m.history.record r → Passes edits m m'

def Walks (m : Machine) : Prop := m.history.Walks m.current.key m.steps

def Rooted (m : Machine) : Prop := m.history.Rooted m.current.key

namespace Passes

variable {edits : Prop} {m m' : Machine}

theorem walks (passes : m.Passes edits m') (h : m.Walks) : m'.Walks := by
  unfold Walks
  cases passes with
  | rests hhistory hkey hsteps =>
    rw [hhistory, hkey]
    exact History.Walks.later h hsteps
  | empties limit _ hhistory =>
    rw [hhistory]
    exact History.walks_withLimit limit _ _
  | enters r hsource htarget hne hstep hsteps hhistory =>
    rw [hhistory, ← htarget, ← hsteps]
    exact History.Walks.record h hsource hstep hne

theorem rooted (passes : m.Passes edits m') (hedit : ¬ edits) (h : m.Walks) (hr : m.Rooted) :
    m'.Rooted := by
  unfold Rooted
  cases passes with
  | rests hhistory hkey =>
    rw [hhistory, hkey]
    exact hr
  | empties _ he => exact absurd he hedit
  | enters r hsource htarget _ _ _ hhistory =>
    rw [hhistory, ← htarget]
    exact History.Walks.rooted h hr hsource

end Passes

end Machine

namespace Site

theorem passes_entered {s : Site ρ} {m : Machine} {how : Move} {h : Handle} (edits : Prop)
    (hhistory : s.machine.history = m.history) (hkey : s.machine.current.key = m.current.key)
    (hsteps : m.steps ≤ s.machine.steps) (ha : s.Admits how h) :
    m.Passes edits (s.entered how h).machine :=
  .enters { source := s.machine.current.key, target := h.key, step := s.machine.steps,
            time := s.clock } hkey rfl ha.2.2 hsteps rfl (hhistory ▸ rfl)

theorem Leads.passes {s s' : Site ρ} {m : Machine} (edits : Prop) (h : s.Leads s')
    (hhistory : s.machine.history = m.history) (hkey : s.machine.current.key = m.current.key)
    (hsteps : m.steps ≤ s.machine.steps) : m.Passes edits s'.machine := by
  cases h with
  | stays => exact .rests hhistory hkey hsteps
  | enters _ ha => exact passes_entered edits hhistory hkey hsteps ha

theorem Did.passes {s s' : Site ρ} {op : Op} (h : s.Did op s') (hedit : ¬ op.EditsHistory) :
    s.machine.Passes op.EditsHistory s'.machine := by
  cases h with
  | nothing | noted | attached => exact .rests rfl rfl (Nat.le_refl _)
  | edited _ he => exact absurd he hedit
  | moved _ ha => exact passes_entered _ rfl rfl (Nat.le_refl _) ha
  | stacked _ hl => exact hl.passes _ rfl rfl (Nat.le_refl _)

/-- To clear a history is to put an empty one of the same limit in its place. -/
theorem answer_of_edits (s : Site ρ) {op : Op} (hedit : op.EditsHistory)
    (hdirect : ¬ op.RecordsDirectly) :
    ∃ limit, (s.answer op).2 = s.withHistory (.withLimit limit) := by
  cases op with
  | clearHistory => exact ⟨s.machine.history.limit, rfl⟩
  | limitHistory limit => exact ⟨limit, rfl⟩
  | recordDirectly => exact absurd trivial hdirect
  | _ => cases hedit

theorem Born.walks {s : Site ρ} (born : s.Born) : s.machine.Walks ∧ s.machine.Rooted := by
  refine Born.induction (P := fun s : Site ρ => s.machine.Walks ∧ s.machine.Rooted)
    ?_ ?_ ?_ ?_ born
  · intro s s' h hm _
    rwa [hm]
  · intro store id kind given limit observers s hm _
    rw [hm]
    exact ⟨History.walks_withLimit limit _ _, fun _ => rfl⟩
  · intro s h s' hs _ hd
    have passes := hd.passes id
    exact ⟨passes.walks hs.1, passes.rooted id hs.1 hs.2⟩
  · intro s key s' hs hd
    have passes := hd.passes id
    exact ⟨passes.walks hs.1, passes.rooted id hs.1 hs.2⟩

end Site

namespace Execution

/-- A moment at which a record is written of a transition that was not made. -/
def RecordsDirectly (e : Execution ρ) : Prop :=
  match e.focus with
  | .perform op _ => op.RecordsDirectly
  | _ => False

theorem RecordsDirectly.edits {e : Execution ρ} (h : e.RecordsDirectly) : e.EditsHistory := by
  unfold RecordsDirectly at h
  unfold EditsHistory
  cases hf : e.focus with
  | perform op go =>
    rw [hf] at h
    exact Op.RecordsDirectly.edits h
  | _ => simp [hf] at h

theorem next_passes {e e' : Execution ρ} (next : e.next = .inl e') (hdirect : ¬ e.RecordsDirectly) :
    e.site.machine.Passes e.EditsHistory e'.site.machine := by
  by_cases hedit : e.EditsHistory
  · unfold EditsHistory at hedit
    unfold RecordsDirectly at hdirect
    cases hf : e.focus with
    | perform op go =>
      simp only [hf] at hedit hdirect
      obtain ⟨limit, hs⟩ := e.site.answer_of_edits hedit hdirect
      simp only [Execution.next, hf] at next
      cases next
      simp only [hs]
      exact .empties limit (by simpa only [EditsHistory, hf] using hedit) rfl rfl rfl
    | _ => simp [hf] at hedit
  · have deed := next_deed next
    generalize e'.site = s' at deed
    cases deed with
    | idle | wrapped => exact .rests rfl rfl (Nat.le_refl _)
    | performed hf hd =>
      simp only [EditsHistory, hf] at hedit ⊢
      exact hd.passes hedit
    | activated _ _ hl => exact hl.passes _ rfl rfl (Nat.le_succ _)

theorem Run.walks {first e : Execution ρ} {past : List (Execution ρ)} (run : Run first past e)
    (hw : first.site.machine.Walks) (hdirect : ∀ x ∈ past, ¬ x.RecordsDirectly) :
    e.site.machine.Walks := by
  induction run with
  | start => exact hw
  | @step past x e' _ _ next ih =>
    obtain ⟨hx, hpast⟩ := List.forall_mem_cons.mp hdirect
    exact (next_passes next hx).walks (ih hpast)
  | again _ _ _ ih => exact ih (List.forall_mem_cons.mp hdirect).2
  | meanwhile _ _ _ _ ih => exact ih hdirect

theorem Run.rooted {first e : Execution ρ} {past : List (Execution ρ)} (run : Run first past e)
    (hw : first.site.machine.Walks) (hr : first.site.machine.Rooted)
    (hedit : ∀ x ∈ past, ¬ x.EditsHistory) : e.site.machine.Rooted := by
  induction run with
  | start => exact hr
  | @step past x e' run _ next ih =>
    obtain ⟨hx, hpast⟩ := List.forall_mem_cons.mp hedit
    have hdirect : ∀ y ∈ x :: past, ¬ y.RecordsDirectly := fun y hy h => hedit y hy h.edits
    have hwalk := run.walks hw fun y hy => hdirect y (List.mem_cons_of_mem _ hy)
    exact (next_passes next (hdirect x List.mem_cons_self)).rooted hx hwalk (ih hpast)
  | again _ _ _ ih => exact ih (List.forall_mem_cons.mp hedit).2
  | meanwhile _ _ _ _ ih => exact ih hedit

/-- Along a run in which histories are emptied or replaced by empty ones, but nothing is written to
them directly, the records are linked, the last of them has entered the current state, their numbers
do not decrease or run ahead of the step counter, and none has entered the fault state. As long as
nothing was let go or emptied, the first of them has left the state that machines start in. -/
theorem Run.history_is_a_walk {s : Site ρ} {p : Program ρ} {past : List (Execution ρ)}
    {e : Execution ρ} (born : s.Born) (run : Run (.start s p) past e)
    (hdirect : ∀ x ∈ past, ¬ x.RecordsDirectly) :
    (e.site.machine.history.records.IsChain fun r next => r.target = next.source) ∧
      (∀ r, e.site.machine.history.last? = some r → r.target = e.site.machine.current.key) ∧
      (e.site.machine.history.records.map Record.step).Pairwise (· ≤ ·) ∧
      (∀ r ∈ e.site.machine.history.records,
        r.step ≤ e.site.machine.steps ∧ r.target ≠ Key.error) ∧
      ((∀ x ∈ past, ¬ x.EditsHistory) → e.site.machine.history.dropped = 0 →
        ∀ r, e.site.machine.history.records.head? = some r → r.source = Key.uninitialized) := by
  have walks := run.walks born.walks.1 hdirect
  refine ⟨walks.linked, walks.arrives, walks.sorted,
    fun r hr => ⟨walks.bounded r hr, walks.no_fault r hr⟩, fun hedit h0 r hr => ?_⟩
  have hroot := run.rooted born.walks.1 born.walks.2 hedit h0
  rw [hr] at hroot
  exact hroot

/-- A history with room for two records goes through a failed activation and two resets. -/
theorem history_is_a_walk_past_underflow : ∃ (past : List (Execution Unit)) (e : Execution Unit),
    Run (.start (.fresh .stack) (.perform (.limitHistory 2) fun _ =>
      .perform (.move .transit (.key Key.pop)) fun _ => .step fun _ =>
        .perform (.move .reset (.key Key.done)) fun _ =>
          .perform (.move .reset (.key Key.pop)) fun _ => .done ())) past e ∧
      e.site.machine.history.path = [Key.done, Key.pop] ∧ e.site.machine.history.dropped = 1 ∧
      e.site.machine.current.key = Key.pop ∧
      (e.site.machine.history.records.IsChain fun r next => r.target = next.source) ∧
      ∀ r, e.site.machine.history.last? = some r → r.target = e.site.machine.current.key := by
  let p : Program Unit := .perform (.limitHistory 2) fun _ =>
    .perform (.move .transit (.key Key.pop)) fun _ => .step fun _ =>
      .perform (.move .reset (.key Key.done)) fun _ =>
        .perform (.move .reset (.key Key.pop)) fun _ => .done ()
  obtain ⟨⟨past, e⟩, hforward, hpath, hdropped, hkey, hdirect⟩ : ∃ r,
      forward 5 (.start (.fresh .stack) p) = some r ∧
        r.2.site.machine.history.path = [Key.done, Key.pop] ∧
        r.2.site.machine.history.dropped = 1 ∧ r.2.site.machine.current.key = Key.pop ∧
        ∀ x ∈ r.1, ¬ x.RecordsDirectly := by
    refine ⟨_, rfl, rfl, rfl, rfl, ?_⟩
    simp only [List.forall_mem_cons]
    exact ⟨id, id, id, id, id, fun x hx => absurd hx List.not_mem_nil⟩
  have run : Run (.start (.fresh .stack) p) past e := run_forward hforward
  obtain ⟨hlinked, harrives, -⟩ := run.history_is_a_walk (Site.fresh_born .stack) hdirect
  exact ⟨past, e, run, hpath, hdropped, hkey, hlinked, harrives⟩

end Execution

end StateEngine
