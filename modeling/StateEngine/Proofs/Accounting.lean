import StateEngine.Proofs.Run

/-!
# Accounting for transitions

The history of a machine counts its transitions and the step counter its activations. Each activation
begins by giving up the mark of the transition that led to it, so along a run the two counts differ
by at most the transition that is still marked.
-/

namespace StateEngine

variable {ρ : Type}

namespace History

theorem mem_records_record {h : History} {r x : Record} (hx : x ∈ (h.record r).records) :
    x ∈ h.records ∨ x = r := by
  unfold record at hx
  split at hx
  · exact .inl hx
  · split at hx
    · rcases List.mem_append.mp hx with hx | hx
      · exact .inl (List.mem_of_mem_drop hx)
      · exact .inr (List.mem_singleton.mp hx)
    · rcases List.mem_append.mp hx with hx | hx
      · exact .inl hx
      · exact .inr (List.mem_singleton.mp hx)

/-- A new record comes last, whether or not the oldest makes room for it. -/
theorem pairwise_record {h : History} {r : Record} {R : Nat → Nat → Prop}
    (hp : (h.records.map Record.step).Pairwise R) (hr : ∀ x ∈ h.records, R x.step r.step) :
    ((h.record r).records.map Record.step).Pairwise R := by
  have happend : ∀ kept : List Record, kept.Sublist h.records →
      ((kept ++ [r]).map Record.step).Pairwise R := by
    intro kept hk
    rw [List.map_append, List.pairwise_append]
    refine ⟨hp.sublist (hk.map Record.step), List.pairwise_singleton _ _, ?_⟩
    intro n hn m hm
    obtain ⟨x, hx, rfl⟩ := List.mem_map.mp hn
    obtain rfl : m = r.step := by simpa using hm
    exact hr x (hk.subset hx)
  unfold record
  split
  · exact hp
  · split
    · exact happend _ (List.drop_sublist 1 h.records)
    · exact happend _ (List.Sublist.refl h.records)

end History

/-- What a machine keeps about its transitions and activations. -/
structure Account where
  history : History
  steps : Nat
  progressed : Bool

namespace Account

def transitions (a : Account) : Nat := a.history.dropped + a.history.records.length

/-- The activations, and the transition that no activation has followed yet. -/
def owed (a : Account) : Nat := a.steps + if a.progressed then 1 else 0

/-- A transition is written down under the number of the latest activation. -/
def commit (a : Account) (r : Record) : Account :=
  { a with history := a.history.record r, progressed := true }

def activate (a : Account) : Account := { a with steps := a.steps + 1, progressed := false }

theorem transitions_commit (a : Account) (r : Record) :
    (a.commit r).transitions = a.transitions + 1 :=
  a.history.dropped_add_length_record r

theorem owed_commit (a : Account) (r : Record) : (a.commit r).owed = a.steps + 1 := rfl

theorem owed_activate {a : Account} (h : a.progressed = true) : a.activate.owed = a.owed := by
  simp [owed, activate, h]

theorem owed_le (a : Account) : a.owed ≤ a.steps + 1 := by
  unfold owed
  split <;> omega

theorem owed_of_not_progressed {a : Account} (h : a.progressed = false) : a.owed = a.steps := by
  simp [owed, h]

/-- The books of a machine. They balance exactly as long as they are `strict`. -/
structure Balanced (strict : Prop) (a : Account) : Prop where
  enough : a.owed ≤ a.transitions
  sorted : (a.history.records.map Record.step).Pairwise (· ≤ ·)
  bounded : ∀ r ∈ a.history.records, r.step ≤ a.steps
  exact : strict → a.transitions = a.owed
  increasing : strict → (a.history.records.map Record.step).Pairwise (· < ·)
  below : strict → ∀ r ∈ a.history.records, r.step < a.owed

namespace Balanced

theorem opened (limit : Nat) (strict : Prop) :
    Balanced strict { history := History.withLimit limit, steps := 0, progressed := false } where
  enough := Nat.le_refl 0
  sorted := .nil
  bounded _ hr := absurd hr List.not_mem_nil
  exact _ := rfl
  increasing _ := .nil
  below _ _ hr := absurd hr List.not_mem_nil

theorem weaken {strict stricter : Prop} {a : Account} (hb : a.Balanced strict)
    (h : stricter → strict) : a.Balanced stricter where
  enough := hb.enough
  sorted := hb.sorted
  bounded := hb.bounded
  exact hs := hb.exact (h hs)
  increasing hs := hb.increasing (h hs)
  below hs := hb.below (h hs)

theorem activate {strict : Prop} {a : Account} (hb : a.Balanced strict)
    (hp : a.progressed = true) : a.activate.Balanced strict where
  enough := owed_activate hp ▸ hb.enough
  sorted := hb.sorted
  bounded r hr := Nat.le_succ_of_le (hb.bounded r hr)
  exact hs := owed_activate hp ▸ hb.exact hs
  increasing := hb.increasing
  below hs r hr := owed_activate hp ▸ hb.below hs r hr

/-- A transition keeps the balance if no other one is marked; in any case not too few are counted
for the activations. -/
theorem commit {strict : Prop} {a : Account} (hb : a.Balanced strict) {r : Record}
    (hr : r.step = a.steps) :
    (a.commit r).Balanced (strict ∧ a.progressed = false) where
  enough := by
    have he := hb.enough
    have ho := a.owed_commit r
    rw [transitions_commit]
    unfold owed at he
    omega
  sorted := History.pairwise_record hb.sorted fun x hx => hr ▸ hb.bounded x hx
  bounded x hx := by
    rcases History.mem_records_record hx with hx | rfl
    · exact hb.bounded x hx
    · exact Nat.le_of_eq hr
  exact hs := by
    rw [transitions_commit, owed_commit, hb.exact hs.1, owed_of_not_progressed hs.2]
  increasing hs := by
    refine History.pairwise_record (hb.increasing hs.1) fun x hx => ?_
    have hlt := hb.below hs.1 x hx
    rwa [owed_of_not_progressed hs.2, ← hr] at hlt
  below hs x hx := by
    rw [owed_commit]
    rcases History.mem_records_record hx with hx | rfl
    · exact Nat.lt_of_lt_of_le (hb.below hs.1 x hx) a.owed_le
    · exact Nat.lt_succ_of_le (Nat.le_of_eq hr)

end Balanced

end Account

def Machine.account (m : Machine) : Account :=
  { history := m.history, steps := m.steps, progressed := m.progressed }

namespace Account

/-- What one moment can do to the account. Only a reset commits a transition while another one is
still marked. -/
inductive Change (resets : Prop) : Account → Account → Prop where
  | kept {a : Account} : Change resets a a
  | committed {a : Account} {r : Record} : r.step = a.steps →
      (¬ resets → a.progressed = false) → Change resets a (a.commit r)
  | activated {a after : Account} : a.progressed = true → Change resets a.activate after →
      Change resets a after

theorem Balanced.change {strict resets : Prop} {a after : Account} (hb : a.Balanced strict)
    (hc : Change resets a after) : after.Balanced (strict ∧ ¬ resets) := by
  induction hc with
  | kept => exact hb.weaken And.left
  | committed hr hp => exact (hb.commit hr).weaken fun hs => ⟨hs.1, hp hs.2⟩
  | activated hp _ ih => exact ih (hb.activate hp)

end Account

namespace Site

theorem entered_account (s : Site ρ) (how : Move) (h : Handle) : ∃ r : Record,
    r.step = s.machine.account.steps ∧
      (s.entered how h).machine.account = s.machine.account.commit r :=
  ⟨{ source := s.machine.current.key, target := h.key, step := s.machine.steps, time := s.clock },
    rfl, rfl⟩

theorem account_of_admits {s : Site ρ} {how : Move} {h : Handle} {resets : Prop}
    (ha : s.Admits how h) (hr : how = .reset → resets) :
    Account.Change resets s.machine.account (s.entered how h).machine.account := by
  obtain ⟨r, hstep, haccount⟩ := s.entered_account how h
  rw [haccount]
  exact .committed hstep fun hn => ha.1 fun he => hn (hr he)

theorem Leads.account {s s' : Site ρ} (resets : Prop) (h : s.Leads s') :
    Account.Change resets s.machine.account s'.machine.account := by
  cases h with
  | stays => exact .kept
  | enters _ ha => exact account_of_admits ha nofun

theorem Did.account {s s' : Site ρ} {op : Op} (h : s.Did op s') (hedit : ¬ op.EditsHistory) :
    Account.Change op.Resets s.machine.account s'.machine.account := by
  cases h with
  | nothing | noted | attached => exact .kept
  | edited _ he => exact absurd he hedit
  | moved _ ha => exact account_of_admits ha fun he => he ▸ trivial
  | stacked _ hl => exact hl.account _

/-- The books of a fresh or built machine are in order. -/
theorem Born.balanced {s : Site ρ} (born : s.Born) : s.machine.account.Balanced True := by
  refine Born.induction (P := fun s : Site ρ => s.machine.account.Balanced True)
    ?_ ?_ ?_ ?_ born
  · intro s s' h hm _
    rwa [hm]
  · intro store id kind given limit observers s hm _
    rw [hm]
    exact .opened limit True
  · intro s h s' hb _ hd
    exact (hb.change (hd.account id)).weaken fun _ => ⟨trivial, id⟩
  · intro s key s' hb hd
    exact (hb.change (hd.account id)).weaken fun _ => ⟨trivial, id⟩

end Site

namespace Execution

/-- A moment at which the history is written to by hand. -/
def EditsHistory (e : Execution ρ) : Prop :=
  match e.focus with
  | .perform op _ => op.EditsHistory
  | _ => False

/-- A moment at which a state is entered whatever was entered before. -/
def Resets (e : Execution ρ) : Prop :=
  match e.focus with
  | .perform op _ => op.Resets
  | _ => False

theorem Deed.account {e : Execution ρ} {s' : Site ρ} (h : e.Deed s') (hedit : ¬ e.EditsHistory) :
    Account.Change e.Resets e.site.machine.account s'.machine.account := by
  cases h with
  | idle | wrapped => exact .kept
  | performed hf hd =>
    simp only [EditsHistory, hf] at hedit
    simp only [Resets, hf]
    exact hd.account hedit
  | activated ha _ hl =>
    -- An activation begins only where a transition is marked.
    obtain ⟨-, hd, -⟩ := activated?_eq_some_iff.mp ha
    have hp : e.site.machine.progressed = true := (Machine.demand_eq_true_iff.mp hd).2.2.2
    exact .activated hp (hl.account e.Resets)

theorem Run.balanced {first e : Execution ρ} {past : List (Execution ρ)} (run : Run first past e)
    (hb : first.site.machine.account.Balanced True) (hedit : ∀ x ∈ past, ¬ x.EditsHistory) :
    e.site.machine.account.Balanced (∀ x ∈ past, ¬ x.Resets) := by
  induction run with
  | start => exact hb.weaken fun _ => trivial
  | @step past x e' run _ next ih =>
    have hx := ih fun y hy => hedit y (List.mem_cons_of_mem _ hy)
    refine (hx.change ((next_deed next).account (hedit x List.mem_cons_self))).weaken fun hs => ?_
    exact ⟨fun y hy => hs y (List.mem_cons_of_mem _ hy), hs x List.mem_cons_self⟩
  | @again past x _ p run _ ih =>
    have hx := ih fun y hy => hedit y (List.mem_cons_of_mem _ hy)
    exact hx.weaken fun hs y hy => hs y (List.mem_cons_of_mem _ hy)
  | meanwhile _ _ _ _ ih => exact ih hedit

/-- Every transition of a run is kept or counted as dropped, and there is one for every activation
and one more as long as none has followed the last. No two go under one number: while the step
counter stands, at most one is committed. A state that steps the machine itself goes on under the
later number. Where resets commit further transitions, only the bounds are left. -/
theorem Run.transitions_balance {s : Site ρ} {p : Program ρ} {past : List (Execution ρ)}
    {e : Execution ρ} (born : s.Born) (run : Run (.start s p) past e)
    (hedit : ∀ x ∈ past, ¬ x.EditsHistory) :
    ((∀ x ∈ past, ¬ x.Resets) →
        e.site.machine.history.dropped + e.site.machine.history.records.length =
            e.site.machine.steps + (if e.site.machine.progressed then 1 else 0) ∧
          (e.site.machine.history.records.map Record.step).Pairwise (· < ·) ∧
          ∀ x ∈ past, x.site.machine.steps = e.site.machine.steps →
            e.site.machine.history.dropped + e.site.machine.history.records.length ≤
              x.site.machine.history.dropped + x.site.machine.history.records.length + 1) ∧
      e.site.machine.steps + (if e.site.machine.progressed then 1 else 0) ≤
        e.site.machine.history.dropped + e.site.machine.history.records.length ∧
      (e.site.machine.history.records.map Record.step).Pairwise (· ≤ ·) ∧
      ∀ r ∈ e.site.machine.history.records, r.step ≤ e.site.machine.steps := by
  have hb := run.balanced born.balanced hedit
  refine ⟨fun hreset => ⟨hb.exact hreset, hb.increasing hreset, ?_⟩, hb.enough, hb.sorted,
    hb.bounded⟩
  intro x hx hsteps
  obtain ⟨earlier, hrun, hsub⟩ := run.of_mem hx
  have hbx := hrun.balanced born.balanced fun y hy => hedit y (hsub hy)
  have hnow : e.site.machine.account.transitions = e.site.machine.account.owed := hb.exact hreset
  have hthen : x.site.machine.account.owed ≤ x.site.machine.account.transitions := hbx.enough
  have hle := e.site.machine.account.owed_le
  have hge : x.site.machine.steps ≤ x.site.machine.account.owed := Nat.le_add_right _ _
  change e.site.machine.account.owed ≤ e.site.machine.steps + 1 at hle
  change e.site.machine.account.transitions ≤ x.site.machine.account.transitions + 1
  omega

/-- A fresh stack machine enters `POP`, which underflows: the transition is followed by the
activation, and the failure is no transition. -/
theorem transitions_balance_underflow : ∃ (past : List (Execution Unit)) (e : Execution Unit),
    Run (.start (.fresh .stack)
      (.perform (.move .transit (.key Key.pop)) fun _ => .step fun _ => .done ())) past e ∧
      e.site.machine.steps = 1 ∧
      e.site.machine.history.dropped + e.site.machine.history.records.length =
        e.site.machine.steps + (if e.site.machine.progressed then 1 else 0) := by
  let p : Program Unit :=
    .perform (.move .transit (.key Key.pop)) fun _ => .step fun _ => .done ()
  obtain ⟨⟨past, e⟩, hforward, hsteps, hedit, hreset⟩ : ∃ r,
      forward 2 (.start (.fresh .stack) p) = some r ∧ r.2.site.machine.steps = 1 ∧
        (∀ x ∈ r.1, ¬ x.EditsHistory) ∧ ∀ x ∈ r.1, ¬ x.Resets := by
    refine ⟨_, rfl, rfl, ?_, ?_⟩
    · intro x hx
      rcases List.mem_pair.mp hx with rfl | rfl <;> exact id
    · intro x hx
      rcases List.mem_pair.mp hx with rfl | rfl <;> exact id
  have run : Run (.start (.fresh .stack) p) past e := run_forward hforward
  obtain ⟨hbalance, -⟩ := run.transitions_balance (Site.fresh_born .stack) hedit
  exact ⟨past, e, run, hsteps, (hbalance hreset).1⟩

end Execution

end StateEngine
