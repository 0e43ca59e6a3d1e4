import StateEngine.Builder
import StateEngine.Proofs.Deed

/-!
# Runs

A run starts at a fresh or built machine and goes on for as long as anyone drives it: one program
of the driver after another, each to its end, its failure or its panic. Between two moments the rest
of the world may act on the store. A run remembers the moments it has passed, so that what happened
so far can be read off them.
-/

namespace StateEngine

variable {ρ : Type}

/-- A site whose machine has just been made, by hand or by a builder. -/
inductive Site.Born : Site ρ → Prop where
  | created (store : Store ρ) (id : MachineId) (kind : MachineKind) (shelf : Table Handle)
      (journal : List Entry) (clock : Timestamp) :
      Born { machine := (Machine.create store id kind).1, store := (Machine.create store id kind).2,
             shelf, journal, clock }
  | built {b : Builder} {store after : Store ρ} {id : MachineId} {time : Timestamp} {m : Machine}
      (shelf : Table Handle) (journal : List Entry) (clock : Timestamp) :
      (∀ h ∈ b.states, store.Knows h) → b.build store id time = (.ok m, after) →
      Born { machine := m, store := after, shelf, journal, clock }

/-- A machine alone in the world, in which nothing has happened. -/
def Site.fresh (kind : MachineKind) : Site ρ :=
  { machine := (Machine.create (.empty : Store ρ) ⟨0⟩ kind).1
    store := (Machine.create .empty ⟨0⟩ kind).2
    shelf := .empty
    journal := []
    clock := .epoch }

theorem Site.fresh_born (kind : MachineKind) : (Site.fresh kind : Site ρ).Born :=
  .created .empty ⟨0⟩ kind .empty [] .epoch

namespace Builder

/-- What the taking of one state keeps holds when the taking of states ends, well or not. -/
theorem attachAll_induction {P : Site ρ → Prop}
    (attach : ∀ s h s', P s → s.store.Knows h → s.Did (.attach h) s' → P s')
    {states : List Handle} {s s' : Site ρ} {r : Except MachineError Unit} (hs : P s)
    (hk : ∀ h ∈ states, s.store.Knows h) (h : attachAll states s = (r, s')) : P s' := by
  induction states generalizing s with
  | nil =>
    cases h
    exact hs
  | cons g rest ih =>
    have hd := s.answer_did (.attach g)
    rw [attachAll] at h
    cases ha : s.attach g with
    | error e =>
      rw [ha] at h
      cases h
      exact hs
    | ok r =>
      simp only [ha] at h
      simp only [Site.answer, ha] at hd
      exact ih (attach s g r.2 hs (hk g List.mem_cons_self) hd)
        (fun g' hg' => hd.grows.knows (hk g' (List.mem_cons_of_mem _ hg'))) h

end Builder

/-- A machine has just been made if it was created and named, and then had states attached that were
there before and perhaps one of its states selected. -/
theorem Site.Born.induction {P : Site ρ → Prop}
    (aside : ∀ s s', P s → s'.machine = s.machine → s'.store = s.store → P s')
    (created : ∀ (store : Store ρ) (id : MachineId) (kind : MachineKind) (given : Option String)
      (limit : Nat) (observers : List String) (s : Site ρ),
      s.machine = { (Machine.create store id kind).1 with
        given, history := History.withLimit limit, observers } →
      s.store = (Machine.create store id kind).2 → P s)
    (attach : ∀ s h s', P s → s.store.Knows h → s.Did (.attach h) s' → P s')
    (select : ∀ s key s', P s → s.Did (.move .select (.key key)) s' → P s')
    {s : Site ρ} (born : s.Born) : P s := by
  cases born with
  | created store id kind shelf journal clock =>
    exact created store id kind none History.defaultLimit [] _ rfl rfl
  | @built b store after id time m shelf journal clock hk h =>
    unfold Builder.build at h
    split at h
    · simp at h
    simp only at h
    split at h
    · simp at h
    split at h
    · simp at h
    rename_i s₁ ha
    have h₁ : P s₁ := Builder.attachAll_induction attach
      (created store id b.kind b.name b.historyLimit b.observers _ rfl rfl)
      (fun g hg => (Machine.grows_create store id b.kind).knows (hk g hg)) ha
    split at h
    · simp at h
    rename_i s₂ hi
    simp only [Prod.mk.injEq, Except.ok.injEq] at h
    obtain ⟨rfl, rfl⟩ := h
    refine aside s₂ _ ?_ rfl rfl
    unfold Builder.enterInitial at hi
    split at hi
    · obtain rfl : s₁ = s₂ := congrArg Prod.snd hi
      exact h₁
    · rename_i key _
      have hd := s₁.answer_did (.move .select (.key key))
      rw [show (s₁.answer (.move .select (.key key))).2 = s₂ from congrArg Prod.snd hi] at hd
      exact select s₁ key s₂ h₁ hd

namespace Execution

/-- The states that a program names are states that were made: handles cannot be forged. -/
def Honest (e : Execution ρ) : Prop :=
  match e.focus with
  | .perform op _ => op.Honest e.site.store
  | _ => True

/-- Carries a program on by `n` moments, as long as it goes on and names states by their keys. -/
def forward : Nat → Execution ρ → Option (List (Execution ρ) × Execution ρ)
  | 0, e => some ([], e)
  | n + 1, e =>
    match forward n e with
    | none => none
    | some (past, x) =>
      match x.focus, x.next with
      | .perform (.move _ (.handle _)) _, _ => none
      | .perform (.attach _) _, _ => none
      | _, .inl x' => some (x :: past, x')
      | _, .inr _ => none

/-- A run, with the moments it has passed, the latest first. -/
inductive Run (first : Execution ρ) : List (Execution ρ) → Execution ρ → Prop where
  | start : Run first [] first
  | step {past : List (Execution ρ)} {e e' : Execution ρ} : Run first past e → e.Honest →
      e.next = .inl e' → Run first (e :: past) e'
  /-- The driver goes on with another program. -/
  | again {past : List (Execution ρ)} {e : Execution ρ} {outcome : Outcome ρ} (p : Program ρ) :
      Run first past e → e.next = .inr outcome → Run first (e :: past) (.start e.site p)
  /-- Others make states and take states that are free, what routines have captured changes, handles
  are put aside, and time passes. -/
  | meanwhile {past : List (Execution ρ)} {e : Execution ρ} {store : Store ρ}
      (shelf : Table Handle) (clock : Timestamp) : Run first past e → e.site.store.Grows store →
      Run first past { e with site := { e.site with store, shelf, clock } }

/-- A program that is carried on makes one honest step after the other and nothing in between. -/
theorem forward_succ {n : Nat} {first e : Execution ρ} {past : List (Execution ρ)}
    (h : first.forward (n + 1) = some (past, e)) :
    ∃ earlier x, first.forward n = some (earlier, x) ∧ past = x :: earlier ∧ x.Honest ∧
      x.next = .inl e := by
  rw [forward] at h
  split at h
  · cases h
  · rename_i earlier x hx
    split at h
    · cases h
    · cases h
    · rename_i hnext hmove hattach
      cases h
      refine ⟨earlier, x, hx, rfl, ?_, hnext⟩
      unfold Honest
      split
      · rename_i op go hop
        cases op with
        | move how target =>
          cases target with
          | key key => trivial
          | handle g => exact absurd hop (hmove how g go)
        | attach g => exact absurd hop (hattach g go)
        | _ => trivial
      · trivial
    · cases h

theorem run_forward {n : Nat} {first e : Execution ρ} {past : List (Execution ρ)}
    (h : first.forward n = some (past, e)) : Run first past e := by
  induction n generalizing past e with
  | zero =>
    cases h
    exact .start
  | succ n ih =>
    obtain ⟨earlier, x, hx, rfl, honest, hnext⟩ := forward_succ h
    exact .step (ih hx) honest hnext

/-- What no moment can break of a machine holds along a run. -/
theorem Run.keeps {P : Machine → Prop} {first e : Execution ρ} {past : List (Execution ρ)}
    (run : Run first past e)
    (deed : ∀ {x : Execution ρ} {s' : Site ρ}, x.Deed s' → P x.site.machine → P s'.machine)
    (h : P first.site.machine) : P e.site.machine := by
  induction run with
  | start => exact h
  | step _ _ next ih => exact deed (next_deed next) ih
  | again _ _ _ ih => exact ih
  | meanwhile _ _ _ _ ih => exact ih

/-- Each moment that was passed was reached by a part of the run. -/
theorem Run.of_mem {first e x : Execution ρ} {past : List (Execution ρ)} (run : Run first past e)
    (hx : x ∈ past) : ∃ earlier, Run first earlier x ∧ earlier ⊆ past := by
  induction run with
  | start => cases hx
  | @step past e e' run honest next ih =>
    rcases List.mem_cons.mp hx with rfl | hx
    · exact ⟨past, run, List.subset_cons_self _ _⟩
    · obtain ⟨earlier, hr, hs⟩ := ih hx
      exact ⟨earlier, hr, List.subset_cons_of_subset _ hs⟩
  | @again past e outcome p run next ih =>
    rcases List.mem_cons.mp hx with rfl | hx
    · exact ⟨past, run, List.subset_cons_self _ _⟩
    · obtain ⟨earlier, hr, hs⟩ := ih hx
      exact ⟨earlier, hr, List.subset_cons_of_subset _ hs⟩
  | meanwhile shelf clock run grows ih => exact ih hx

/-- A run has come to the last of the moments that it has passed. -/
theorem Run.before {first e x : Execution ρ} {past : List (Execution ρ)}
    (run : Run first (x :: past) e) : Run first past x := by
  generalize hpast : x :: past = passed at run
  induction run with
  | start => cases hpast
  | step run _ _ _ | again _ run _ _ =>
    obtain ⟨rfl, rfl⟩ := List.cons.inj hpast
    exact run
  | meanwhile _ _ _ _ ih => exact ih hpast

/-- The store as a moment leaves it, before others act on it. -/
def left (e : Execution ρ) : Store ρ :=
  match e.next with
  | .inl e' => e'.site.store
  | .inr _ => e.site.store

/-- The store as the last of the moments passed has left it; `first` if there was none. -/
def leftBy (first : Store ρ) : List (Execution ρ) → Store ρ
  | [] => first
  | x :: _ => x.left

/-- Since the last moment others have only added to the store. -/
theorem Run.grows {first e : Execution ρ} {past : List (Execution ρ)} (run : Run first past e) :
    (leftBy first.site.store past).Grows e.site.store := by
  induction run with
  | start => exact .refl _
  | step _ _ next _ | again _ _ next _ =>
    simp only [leftBy, left, next]
    exact .refl _
  | meanwhile _ _ _ grows ih => exact ih.trans grows

end Execution

namespace Site

/-- A site that some run of a machine comes to. -/
def Reachable (s : Site ρ) : Prop :=
  ∃ first p past e, Site.Born first ∧ Execution.Run (.start first p) past e ∧ e.site = s

/-- Makes states and takes them into the table, as far as they are not refused. -/
def equip (s : Site ρ) : List (Key × Program ρ) → Site ρ
  | [] => s
  | (key, body) :: rest =>
    let (h, store) := s.store.alloc { owner := none, behaviour := .routine key body }
    ({ s with store }.answer (.attach h)).2.equip rest

end Site

/-- Makes states and takes them into the table. -/
def Program.equip [Inhabited ρ] : List (Key × Program ρ) → Program ρ
  | [] => .done default
  | (key, body) :: rest => .wrap key body fun h => .perform (.attach h) fun _ => equip rest

theorem Execution.Run.equip [Inhabited ρ] {first : Execution ρ} {past : List (Execution ρ)}
    {s : Site ρ} (states : List (Key × Program ρ))
    (run : Run first past (.start s (.equip states))) :
    ∃ past', Run first past' (.start (s.equip states) (.done default)) := by
  induction states generalizing s past with
  | nil => exact ⟨past, run⟩
  | cons state rest ih =>
    obtain ⟨key, body⟩ := state
    have made := run.step trivial rfl
    exact ih (made.step (s.store.knows_alloc _) rfl)

theorem Site.equip_reachable [Inhabited ρ] {s : Site ρ} (born : s.Born)
    (states : List (Key × Program ρ)) : (s.equip states).Reachable := by
  have hstart : Execution.Run (.start s (.equip states)) [] (.start s (.equip states)) := .start
  obtain ⟨past, run⟩ := hstart.equip states
  exact ⟨s, _, past, _, born, run, rfl⟩

theorem Site.answer_equip_reachable [Inhabited ρ] {s : Site ρ} (born : s.Born)
    (states : List (Key × Program ρ)) {op : Op} (honest : op.Honest (s.equip states).store) :
    ((s.equip states).answer op).2.Reachable := by
  have hstart : Execution.Run (.start s (.equip states)) [] (.start s (.equip states)) := .start
  obtain ⟨past, run⟩ := hstart.equip states
  have asked := run.again (.perform op fun _ => .done default) rfl
  exact ⟨s, _, _, _, born, asked.step honest rfl, rfl⟩

end StateEngine
