import StateEngine.Proofs.Building
import StateEngine.Proofs.Commitment

/-!
# Where a machine stands

A machine changes its state by transitions only. Each of them is refused for the fault state and sets
the mark that the next activation clears, and no activation begins in a reserved state. So a machine
never stands in the fault state, keeps its mark once it is done, and never runs a constant. The
constants are the reserved states: whoever else may act on the store cannot make another one.
-/

namespace StateEngine

variable {ρ : Type}

namespace Machine

theorem not_reserved_of_demand {m : Machine} (h : m.demand = .ok true) :
    Key.isReserved m.current.key = false := by
  obtain ⟨hdone, herror, hstart, -⟩ := demand_eq_true_iff.mp h
  simp [Key.isReserved, Key.reserved, hdone, herror, hstart]

/-- What a moment can do to the state a machine stands in and to its mark. -/
inductive Turn (m m' : Machine) : Prop where
  | rests : m'.current = m.current → m'.progressed = m.progressed → Turn m m'
  | begins : m.demand = .ok true → m'.current = m.current → m'.progressed = false → Turn m m'
  | enters : m'.current.key ≠ Key.error → m'.progressed = true → Turn m m'

/-- The fault state is out of reach, and a machine that is done bears a mark. -/
structure Upright (m : Machine) : Prop where
  not_fault : m.current.key ≠ Key.error
  marked : m.current.key = Key.done → m.progressed = true

/-- A machine that stands in its first state bears the mark of having come back there. -/
def Underway (m : Machine) : Prop := m.current.key = Key.uninitialized → m.progressed = true

namespace Turn

variable {m m' : Machine}

theorem upright (turn : m.Turn m') (h : m.Upright) : m'.Upright := by
  cases turn with
  | rests hc hp => exact ⟨by rw [hc]; exact h.not_fault, by rw [hc, hp]; exact h.marked⟩
  | begins hd hc _ =>
    obtain ⟨hdone, herror, -, -⟩ := demand_eq_true_iff.mp hd
    exact ⟨by rw [hc]; exact herror, fun h => absurd (hc ▸ h) hdone⟩
  | enters hne hp => exact ⟨hne, fun _ => hp⟩

theorem underway (turn : m.Turn m') (h : m.Underway) : m'.Underway := by
  cases turn with
  | rests hc hp =>
    unfold Underway
    rw [hc, hp]
    exact h
  | begins hd hc _ => exact fun h => absurd (hc ▸ h) (demand_eq_true_iff.mp hd).2.2.1
  | enters _ hp => exact fun _ => hp

/-- Nothing but a transition brings a machine out of its first state or gives it a mark there. -/
theorem before (turn : m.Turn m') (hk : m'.current.key = Key.uninitialized)
    (hp : m'.progressed = false) :
    m.current.key = Key.uninitialized ∧ m.progressed = false := by
  cases turn with
  | rests hc hp' => exact ⟨hc ▸ hk, hp' ▸ hp⟩
  | begins hd hc _ => exact absurd (hc ▸ hk) (demand_eq_true_iff.mp hd).2.2.1
  | enters _ hp' =>
    rw [hp] at hp'
    cases hp'

/-- Only what a machine asks for, where it stands and whether it is marked counts before a turn. -/
theorem of_alike {n : Machine} (turn : n.Turn m') (hd : n.demand = m.demand)
    (hc : n.current = m.current) (hp : n.progressed = m.progressed) : m.Turn m' := by
  cases turn with
  | rests hc' hp' => exact .rests (hc'.trans hc) (hp'.trans hp)
  | begins hd' hc' hp' => exact .begins (hd ▸ hd') (hc'.trans hc) hp'
  | enters hne hp' => exact .enters hne hp'

end Turn

end Machine

theorem Site.Leads.turn {s s' : Site ρ} (h : s.Leads s') : s.machine.Turn s'.machine := by
  cases h with
  | stays => exact .rests rfl rfl
  | enters _ ha => exact .enters ha.2.2 rfl

theorem Site.Did.turn {s s' : Site ρ} {op : Op} (h : s.Did op s') : s.machine.Turn s'.machine := by
  cases h with
  | nothing | noted | edited | attached => exact .rests rfl rfl
  | moved _ ha => exact .enters ha.2.2 rfl
  | stacked _ hl => exact hl.turn.of_alike rfl rfl rfl

theorem Site.Born.upright {s : Site ρ} (born : s.Born) : s.machine.Upright := by
  refine Born.induction (P := fun s : Site ρ => s.machine.Upright) ?_ ?_ ?_ ?_ born
  · intro s s' h hm _
    rwa [hm]
  · intro store id kind given limit observers s hm _
    have hk : s.machine.current.key = Key.uninitialized := by rw [hm]; rfl
    exact ⟨by rw [hk]; decide, by rw [hk]; exact fun h => absurd h (by decide)⟩
  · exact fun s h s' hs _ hd => hd.turn.upright hs
  · exact fun s key s' hs hd => hd.turn.upright hs

/-- A constant is one of the reserved states. -/
def Behaviour.Genuine (b : Behaviour ρ) : Prop :=
  ∀ key, b = .constant key → Key.isReserved key = true

/-- Only the reserved states are constants: nobody else can make one. -/
def Store.Genuine (store : Store ρ) : Prop :=
  ∀ h key, store.behaviour? h = some (.constant key) → Key.isReserved key = true

namespace Store

theorem genuine_iff {store : Store ρ} : store.Genuine ↔ store.All Behaviour.Genuine :=
  ⟨fun genuine h _ hb key heq => genuine h key (heq ▸ hb),
    fun all h key hb => all h _ hb key rfl⟩

/-- What was not there before is no constant but a reserved state. -/
def AddsGenuine (before after : Store ρ) : Prop :=
  ∀ h b, before.behaviour? h = none → after.behaviour? h = some b → b.Genuine

theorem AddsGenuine.refl (store : Store ρ) : store.AddsGenuine store := by
  intro h b hnone hb
  rw [hnone] at hb
  cases hb

theorem Genuine.added {before after : Store ρ} (genuine : before.Genuine)
    (grows : before.Grows after) (adds : before.AddsGenuine after) : after.Genuine := by
  intro h key hb
  cases hold : before.behaviour? h with
  | none => exact adds h _ hold hb key rfl
  | some old =>
    obtain ⟨new, hnew, hcont⟩ := grows.behaviour? hold
    obtain rfl : new = .constant key := Option.some.inj (hnew.symm.trans hb)
    exact genuine h key (hold.trans (congrArg some hcont.eq_of_constant))

theorem genuine_empty : (empty : Store ρ).Genuine := genuine_iff.mpr all_empty

theorem genuine_start : (.constant Key.uninitialized : Behaviour ρ).Genuine := by
  rintro key ⟨⟩
  decide

theorem genuine_of_mem_builtins {kind : MachineKind} {b : Behaviour ρ} (hb : b ∈ builtins kind) :
    b.Genuine := by
  rintro key rfl
  cases kind <;> simp only [builtins, List.mem_cons, Behaviour.constant.injEq, reduceCtorEq,
    List.not_mem_nil, or_false] at hb <;> rcases hb with rfl | rfl <;> decide

end Store

/-- The machine of the site was made in this store, by hand or by a builder. -/
inductive Site.MadeIn (s : Site ρ) (before : Store ρ) : Prop where
  | created {id : MachineId} {kind : MachineKind} :
      Machine.create before id kind = (s.machine, s.store) → MadeIn s before
  | built {b : Builder} {id : MachineId} {time : Timestamp} :
      b.build before id time = (.ok s.machine, s.store) → MadeIn s before

/-- A new machine brings along no constants but the reserved states. -/
theorem Site.MadeIn.genuine {s : Site ρ} {before : Store ρ} (made : s.MadeIn before)
    (genuine : before.Genuine) : s.store.Genuine := by
  have all := Store.genuine_iff.mp genuine
  refine Store.genuine_iff.mpr ?_
  cases made with
  | @created id kind h =>
    have hall : (Machine.create before id kind).2.All Behaviour.Genuine :=
      all.create id Store.genuine_start fun c hc => Store.genuine_of_mem_builtins hc
    rwa [h] at hall
  | @built b id time h =>
    have hall := b.build_all all Store.genuine_start
      (fun c hc => Store.genuine_of_mem_builtins hc) id time
    rwa [h] at hall

namespace Execution

theorem Deed.turn {e : Execution ρ} {s' : Site ρ} (h : e.Deed s') :
    e.site.machine.Turn s'.machine := by
  cases h with
  | idle | wrapped => exact .rests rfl rfl
  | performed _ hd => exact hd.turn
  | activated ha _ hl =>
    obtain ⟨-, hd, -⟩ := activated?_eq_some_iff.mp ha
    -- The mark goes when the activation begins, so that to rest from then on is to have begun.
    cases hl.turn with
    | rests hc hp => exact .begins hd hc hp
    | begins _ hc hp => exact .begins hd hc hp
    | enters hne hp => exact .enters hne hp

theorem Run.upright {first e : Execution ρ} {past : List (Execution ρ)} (run : Run first past e)
    (h : first.site.machine.Upright) : e.site.machine.Upright :=
  run.keeps (fun deed => deed.turn.upright) h

/-- A machine that stands unmarked in its first state has stood there unmarked all the time and has
made no transition. -/
theorem Run.uncommitted {first e : Execution ρ} {past : List (Execution ρ)} (run : Run first past e)
    (hk : e.site.machine.current.key = Key.uninitialized)
    (hp : e.site.machine.progressed = false) :
    first.site.machine.progressed = false ∧ ∀ x ∈ past, x.committed? = none := by
  induction run with
  | start => exact ⟨hp, fun x hx => absurd hx List.not_mem_nil⟩
  | @step past x e' _ _ next ih =>
    obtain ⟨hk', hp'⟩ := (next_deed next).turn.before hk hp
    obtain ⟨hfirst, hnone⟩ := ih hk' hp'
    refine ⟨hfirst, List.forall_mem_cons.mpr ⟨?_, hnone⟩⟩
    cases hc : x.committed? with
    | none => rfl
    | some c =>
      rw [progressed_of_committed next hc] at hp
      cases hp
  | again _ _ next ih =>
    obtain ⟨hfirst, hnone⟩ := ih hk hp
    exact ⟨hfirst, List.forall_mem_cons.mpr ⟨committed?_of_ended next, hnone⟩⟩
  | meanwhile _ _ _ _ ih => exact ih hk hp

/-- A constant that is invoked does not stand under a reserved key. -/
theorem isReserved_of_activated {e : Execution ρ} (sound : e.site.Sound) {key : Key}
    (ha : e.activated? = some (.constant key)) : Key.isReserved key = false := by
  obtain ⟨-, hd, hb⟩ := activated?_eq_some_iff.mp ha
  have hkey := sound.key_currentBehaviour
  rw [hb] at hkey
  rw [show key = e.site.machine.current.key from hkey]
  exact Machine.not_reserved_of_demand hd

/-- A state that is invoked is not a constant, as long as only reserved states are. -/
theorem activated?_ne_constant {e : Execution ρ} (sound : e.site.Sound)
    (genuine : e.site.store.Genuine) (key : Key) : e.activated? ≠ some (.constant key) := by
  intro ha
  have hreserved := genuine _ _ (behaviour?_of_activated sound ha)
  rw [isReserved_of_activated sound ha] at hreserved
  cases hreserved

/-- Whenever others had the store to themselves, before, between and after the moments passed, they
brought no constant of their own into it. -/
def OthersAddGenuine (first : Store ρ) : List (Execution ρ) → Store ρ → Prop
  | [], now => first.AddsGenuine now
  | x :: earlier, now => x.left.AddsGenuine now ∧ OthersAddGenuine first earlier x.site.store

theorem genuine_left {e : Execution ρ} (genuine : e.site.store.Genuine) : e.left.Genuine := by
  unfold left
  cases hn : e.next with
  | inr outcome => exact genuine
  | inl e' =>
    exact Store.genuine_iff.mpr
      ((next_deed hn).all (Store.genuine_iff.mp genuine) fun _ _ _ _ => nofun)

/-- No moment makes a constant. So if others make none either, there are none but the reserved
states. -/
theorem Run.genuine {first e : Execution ρ} {past : List (Execution ρ)} (run : Run first past e)
    (others : OthersAddGenuine first.site.store past e.site.store)
    (genuine : first.site.store.Genuine) : e.site.store.Genuine := by
  induction past generalizing e with
  | nil => exact genuine.added run.grows others
  | cons x earlier ih =>
    obtain ⟨added, others⟩ := others
    exact (genuine_left (ih run.before others)).added run.grows added

/-- Where nobody else acts, nobody brings anything into the store. -/
theorem othersAddGenuine_forward {n : Nat} {first e : Execution ρ} {past : List (Execution ρ)}
    (h : first.forward n = some (past, e)) :
    OthersAddGenuine first.site.store past e.site.store := by
  induction n generalizing past e with
  | zero =>
    cases h
    exact .refl _
  | succ n ih =>
    obtain ⟨earlier, x, hx, rfl, -, hnext⟩ := forward_succ h
    refine ⟨?_, ih hx⟩
    rw [left, hnext]
    exact .refl _

/-- The fault state is never current. A machine that is done bears a mark, and one that stands
unmarked in its first state has made no transition, not even into an initial state when it was
built. Hence no step finds the machine stuck, and no reserved state is ever invoked. The store holds
no other constants, unless there were some before the machine was made or others have added some. -/
theorem Run.no_reserved_state_runs {s : Site ρ} {p : Program ρ} {past : List (Execution ρ)}
    {e : Execution ρ} (born : s.Born) (run : Run (.start s p) past e) :
    e.site.machine.current.key ≠ Key.error ∧
      (e.site.machine.current.key = Key.done → e.site.machine.progressed = true) ∧
      (e.site.machine.current.key = Key.uninitialized → e.site.machine.progressed = false →
        (∀ x ∈ past, x.committed? = none) ∧ s.machine.progressed = false ∧
          ∀ (b : Builder) (store after : Store ρ) (id : MachineId) (time : Timestamp),
            b.build store id time = (.ok s.machine, after) → b.initial = none) ∧
      (∀ name, e.site.machine.demand ≠ .error (.stuck name)) ∧
      (∀ key, e.activated? = some (.constant key) → Key.isReserved key = false) ∧
      (e.site.store.Genuine → ∀ key, e.activated? ≠ some (.constant key)) ∧
      ∀ before, s.MadeIn before → before.Genuine →
        OthersAddGenuine s.store past e.site.store → e.site.store.Genuine := by
  have upright := run.upright born.upright
  have sound := run.sound born.sound
  refine ⟨upright.not_fault, upright.marked, fun hk hp => ?_, fun name => ?_,
    fun _ => isReserved_of_activated sound, activated?_ne_constant sound,
    fun before made genuine others => run.genuine others (made.genuine genuine)⟩
  · obtain ⟨hfirst, hnone⟩ := run.uncommitted hk hp
    refine ⟨hnone, hfirst, fun b store after id time hbuild => ?_⟩
    have hinitial : b.initial.isSome = false :=
      (Builder.progressed_of_build hbuild).symm.trans hfirst
    simpa using hinitial
  · unfold Machine.demand
    split_ifs with _ he
    · exact nofun
    · exact absurd he upright.not_fault
    · exact nofun
    · exact nofun

/-- A machine calls `POP` for a return to the fault state, fails there, and is sent to its end. -/
theorem no_reserved_state_runs_after_fault : ∃ (past : List (Execution Unit)) (e : Execution Unit),
    Run (.start (.fresh .stack) (.perform (.call Key.pop (some .unit) Key.error) fun _ =>
      .step fun _ => .perform (.move .reset (.key Key.done)) fun _ => .step fun _ => .done ()))
      past e ∧
      e.site.machine.current.key = Key.done ∧ e.site.machine.progressed = true ∧
      ∀ key, e.activated? ≠ some (.constant key) := by
  let p : Program Unit := .perform (.call Key.pop (some .unit) Key.error) fun _ =>
    .step fun _ => .perform (.move .reset (.key Key.done)) fun _ => .step fun _ => .done ()
  obtain ⟨⟨past, e⟩, hforward, hdone⟩ : ∃ r, forward 3 (.start (.fresh .stack) p) = some r ∧
      r.2.site.machine.current.key = Key.done := ⟨_, rfl, rfl⟩
  have run : Run (.start (.fresh .stack) p) past e := run_forward hforward
  obtain ⟨-, hmarked, -, -, -, hconstant, hgenuine⟩ :=
    run.no_reserved_state_runs (Site.fresh_born .stack)
  have genuine : e.site.store.Genuine :=
    hgenuine .empty (.created rfl) Store.genuine_empty (othersAddGenuine_forward hforward)
  exact ⟨past, e, run, hdone, hmarked hdone, hconstant genuine⟩

end Execution

theorem Site.Reachable.upright {s : Site ρ} (h : s.Reachable) : s.machine.Upright := by
  obtain ⟨first, p, past, e, born, run, rfl⟩ := h
  exact run.upright born.upright

end StateEngine
