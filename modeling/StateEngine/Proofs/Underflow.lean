import StateEngine.Proofs.Ledger

/-!
# Underflow

A return that leaves no frame reports an underflow when it is refused. That tells the sentinel apart
from the frames of calls as long as nobody calls from an empty stack: such a call has no caller below
its frame either.
-/

namespace StateEngine.Execution

variable {ρ : Type}

/-- An underflow is the return from the sentinel and no other; a return from a call that is refused
says what is wrong with its key. -/
structure TellsUnderflowApart (e : Execution ρ) (opening : Opening) : Prop where
  underflow_iff : (∃ machine cause, e.popOutcome = .error (.stackUnderflow machine cause)) ↔
    opening = .sentinel
  source : opening = .sentinel →
    e.popOutcome = .error (.stackUnderflow e.site.machine.name (.enterError Key.pop))
  unknown : opening ≠ .sentinel → e.site.machine.table.get? opening.returnKey = none →
    e.popOutcome = .error (.unknownKey opening.returnKey e.site.machine.name)
  fault : opening ≠ .sentinel → opening.returnKey = Key.error →
    e.popOutcome = .error (.enterError Key.pop)

/-- A refused return that leaves no frame looks like an underflow. -/
def LooksLikeUnderflow (e : Execution ρ) (returnKey : Key) : Prop :=
  e.site.machine.table.get? returnKey = none ∨ returnKey = Key.error

/-- Each call that has not returned was made at some moment, over the frames of that moment. -/
theorem call_mem_unreturned {past : List (Execution ρ)} {returnKey : Key} {argument : Option Value}
    {caller : Option (Key × Option Value)}
    (h : .call returnKey argument caller ∈ unreturned past) :
    ∃ x ∈ past, (∃ callee, x.Calls callee argument returnKey) ∧
      caller = x.site.machine.frames.head?.map Frame.header := by
  induction past with
  | nil => simp [unreturned] at h
  | cons x past ih =>
    have hearlier : .call returnKey argument caller ∈ unreturned past →
        ∃ y ∈ x :: past, (∃ callee, y.Calls callee argument returnKey) ∧
          caller = y.site.machine.frames.head?.map Frame.header := by
      intro hm
      obtain ⟨y, hy, hcall⟩ := ih hm
      exact ⟨y, List.mem_cons_of_mem _ hy, hcall⟩
    rw [unreturned] at h
    rcases x.stackEvent_cases with hq | ⟨callee, given, key, hcall⟩ | ⟨top, rest, hpop⟩ | ⟨go, hf⟩
    · rw [hq] at h
      exact hearlier h
    · rw [hcall.stackEvent_eq, Opening.after] at h
      rcases List.mem_cons.mp h with heq | hm
      · obtain ⟨rfl, rfl, rfl⟩ := Opening.call.inj heq
        exact ⟨x, List.mem_cons_self, ⟨callee, hcall⟩, rfl⟩
      · exact hearlier hm
    · rw [hpop.stackEvent_eq] at h
      exact hearlier (List.mem_of_mem_tail h)
    · rw [stackEvent, hf] at h
      simp [Site.stackEvent, Opening.after] at h

/-- What `POP` ends with: the key decides, and whether a frame is left. -/
theorem Pops.popOutcome_eq {e : Execution ρ} {top : Frame} {rest : Stack} (h : e.Pops top rest)
    (sound : e.site.Sound) :
    (e.site.machine.table.get? top.returnKey = none →
        e.popOutcome = .error (Builtin.returnError e.site.machine.name rest
          (.unknownKey top.returnKey e.site.machine.name))) ∧
      (top.returnKey = Key.error →
        e.popOutcome = .error (Builtin.returnError e.site.machine.name rest
          (.enterError Key.pop))) ∧
      (¬ e.LooksLikeUnderflow top.returnKey → e.popOutcome = .ok ()) := by
  obtain ⟨-, -, hb⟩ := activated?_eq_some_iff.mp h.1
  have hkey : e.site.begun.machine.current.key = Key.pop := by
    have hcurrent := sound.key_currentBehaviour
    rw [hb] at hcurrent
    exact hcurrent.symm
  refine ⟨fun hk => ?_, fun he => ?_, fun hlooks => ?_⟩
  · rw [popOutcome, Builtin.pop_of_unknown sound.begun rfl h.2 hk]
    rfl
  · rw [popOutcome, Builtin.pop_of_fault sound.begun rfl h.2 he, hkey]
    rfl
  · obtain ⟨g, hg⟩ := Option.ne_none_iff_exists'.mp fun hk => hlooks (.inl hk)
    rw [popOutcome, Builtin.pop_of_listed sound.begun rfl h.2 hg fun he => hlooks (.inr he)]

theorem tellsUnderflowApart_sentinel {e : Execution ρ}
    (h : e.popOutcome = .error (.stackUnderflow e.site.machine.name (.enterError Key.pop))) :
    e.TellsUnderflowApart .sentinel where
  underflow_iff := ⟨fun _ => rfl, fun _ => ⟨_, _, h⟩⟩
  source _ := h
  unknown hn := absurd rfl hn
  fault hn := absurd rfl hn

theorem tellsUnderflowApart_call {e : Execution ρ} {returnKey : Key} {argument : Option Value}
    {caller : Option (Key × Option Value)}
    (hunknown : e.site.machine.table.get? returnKey = none →
      e.popOutcome = .error (.unknownKey returnKey e.site.machine.name))
    (hfault : returnKey = Key.error → e.popOutcome = .error (.enterError Key.pop))
    (hok : ¬ e.LooksLikeUnderflow returnKey → e.popOutcome = .ok ()) :
    e.TellsUnderflowApart (.call returnKey argument caller) where
  underflow_iff := by
    refine ⟨?_, nofun⟩
    rintro ⟨machine, cause, hu⟩
    by_cases hl : e.LooksLikeUnderflow returnKey
    · rcases hl with hk | hk
      · rw [hunknown hk] at hu
        cases hu
      · rw [hfault hk] at hu
        cases hu
    · rw [hok hl] at hu
      cases hu
  source := nofun
  unknown _ := hunknown
  fault _ := hfault

/-- Underflow is told apart from every other return, except where the frame was pushed by a call from
an empty stack and its key cannot be entered. -/
theorem Run.underflow_told_apart_iff {s : Site ρ} {p : Program ρ} {past : List (Execution ρ)}
    {e : Execution ρ} {top : Frame} {rest : Stack} (born : s.Born)
    (hkind : s.machine.kind = .stack) (run : Run (.start s p) past e) (hpop : e.Pops top rest) :
    ∃ opening others go, unreturned past = opening :: others ∧ e.focus = .step go ∧
      e.next = .inl (settle { machine := e.site.machine.name, state := Key.pop, resume := go }
        e.waiting (Builtin.pop e.site.begun)) ∧
      (e.TellsUnderflowApart opening ↔
        ¬ ∃ returnKey argument, opening = .call returnKey argument none ∧
          e.LooksLikeUnderflow returnKey) ∧
      ∀ returnKey argument, opening = .call returnKey argument none →
        ∃ x ∈ past, x.site.machine.frames = [] ∧ ∃ callee, x.Calls callee argument returnKey := by
  have hrecords := run.records (born.records hkind)
  have hsound := run.sound born.sound
  obtain ⟨hunknown, hfault, hok⟩ := hpop.popOutcome_eq hsound
  obtain ⟨⟨go, hfocus⟩, -, hb⟩ := activated?_eq_some_iff.mp hpop.1
  have hkey : e.site.machine.current.key = Key.pop := by
    rw [← hsound.key_currentBehaviour, hb]
    rfl
  have hnext := next_of_activated hfocus hpop.1
  rw [hkey] at hnext
  rw [hpop.2] at hrecords
  cases hopen : unreturned past with
  | nil =>
    rw [hopen] at hrecords
    cases hrecords
  | cons opening others =>
    refine ⟨opening, others, go, rfl, hfocus, hnext, ?_, ?_⟩
    · rw [hopen] at hrecords
      cases hrecords with
      | sentinel hr =>
        refine ⟨?_, fun _ => tellsUnderflowApart_sentinel (hfault hr)⟩
        rintro - ⟨_, _, hcall, -⟩
        cases hcall
      | @call _ _ returnKey argument _ hr _ _ =>
        subst hr
        cases rest with
        | cons caller below =>
          refine ⟨?_, fun _ => tellsUnderflowApart_call hunknown hfault hok⟩
          rintro - ⟨_, _, hcall, -⟩
          cases hcall
        | nil =>
          constructor
          · rintro hapart ⟨_, _, hcall, hlooks⟩
            obtain ⟨rfl, -, -⟩ := Opening.call.inj hcall
            rcases hlooks with hk | hk
            · cases hapart.underflow_iff.mp ⟨_, _, hunknown hk⟩
            · cases hapart.underflow_iff.mp ⟨_, _, hfault hk⟩
          · intro hn
            have hlooks : ¬ e.LooksLikeUnderflow top.returnKey :=
              fun hl => hn ⟨top.returnKey, argument, rfl, hl⟩
            exact tellsUnderflowApart_call (fun hk => absurd (.inl hk) hlooks)
              (fun hk => absurd (.inr hk) hlooks) hok
    · rintro returnKey argument rfl
      obtain ⟨x, hx, hcall, hcaller⟩ := call_mem_unreturned (hopen ▸ List.mem_cons_self)
      refine ⟨x, hx, ?_, hcall⟩
      cases hframes : x.site.machine.frames with
      | nil => rfl
      | cons frame below =>
        rw [hframes] at hcaller
        cases hcaller

/-- A fresh machine sent to `POP` returns from the sentinel. -/
theorem underflow_told_apart_fresh : ∃ (past : List (Execution Unit)) (e : Execution Unit),
    Run (.start (.fresh .stack)
      (.perform (.move .select (.key Key.pop)) fun _ => .step fun _ => .done ())) past e ∧
      unreturned past = [.sentinel] ∧ e.TellsUnderflowApart .sentinel := by
  let p : Program Unit :=
    .perform (.move .select (.key Key.pop)) fun _ => .step fun _ => .done ()
  obtain ⟨⟨past, e⟩, hforward, hpop, hopen⟩ : ∃ r, forward 1 (.start (.fresh .stack) p) = some r ∧
      r.2.Pops Stack.sentinel [] ∧ unreturned r.1 = [.sentinel] := ⟨_, rfl, ⟨rfl, rfl⟩, rfl⟩
  have run : Run (.start (.fresh .stack) p) past e := run_forward hforward
  obtain ⟨opening, others, -, hlatest, -, -, hapart, -⟩ :=
    run.underflow_told_apart_iff (Site.fresh_born .stack) rfl hpop
  obtain ⟨rfl, -⟩ := List.cons.inj (hopen.symm.trans hlatest)
  refine ⟨past, e, run, hopen, hapart.mpr ?_⟩
  rintro ⟨_, _, hcall, -⟩
  cases hcall

/-- After an underflow the machine is called from the empty stack, and the return to the fault state
passes for another underflow. -/
theorem call_from_empty_stack_underflows : ∃ (past : List (Execution Unit)) (e : Execution Unit),
    Run (.start (.fresh .stack)
      (.perform (.move .select (.key Key.pop)) fun _ => .step fun _ =>
        .perform (.call Key.pop (some .unit) Key.error) fun _ => .step fun _ => .done ())) past e ∧
      e.Pops (.opened Key.error (some .unit)) [] ∧
      unreturned past = [.call Key.error (some .unit) none] ∧
      e.popOutcome = .error (.stackUnderflow Machine.automaticName (.enterError Key.pop)) ∧
      ¬ e.TellsUnderflowApart (.call Key.error (some .unit) none) := by
  let p : Program Unit :=
    .perform (.move .select (.key Key.pop)) fun _ => .step fun _ =>
      .perform (.call Key.pop (some .unit) Key.error) fun _ => .step fun _ => .done ()
  obtain ⟨⟨past, e⟩, hforward, hpop, hopen, houtcome⟩ : ∃ r,
      forward 3 (.start (.fresh .stack) p) = some r ∧
        r.2.Pops (.opened Key.error (some .unit)) [] ∧
        unreturned r.1 = [.call Key.error (some .unit) none] ∧
        r.2.popOutcome = .error (.stackUnderflow Machine.automaticName (.enterError Key.pop)) :=
    ⟨_, rfl, ⟨rfl, rfl⟩, rfl, rfl⟩
  have run : Run (.start (.fresh .stack) p) past e := run_forward hforward
  refine ⟨past, e, run, hpop, hopen, houtcome, fun hapart => ?_⟩
  cases hapart.underflow_iff.mp ⟨_, _, houtcome⟩

end StateEngine.Execution
