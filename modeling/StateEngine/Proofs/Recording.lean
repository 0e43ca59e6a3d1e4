import StateEngine.Proofs.Accounting
import StateEngine.Proofs.Commitment

/-!
# What is recorded

Every transition adds one record to the history, and a history of any limit holds the tail of all
that was added to it. Nothing that a machine does depends on its history: with another one in its
place the machine does the same, and the same records are added there.
-/

namespace StateEngine

variable {ρ : Type}

namespace History

theorem record_of_disabled {h : History} (hl : h.limit = 0) (r : Record) :
    h.record r = { h with dropped := h.dropped + 1 } := by
  rw [record, if_pos hl]

theorem record_of_full {h : History} (hl : h.limit ≠ 0) (hfull : h.records.length = h.limit)
    (r : Record) :
    h.record r = { h with records := h.records.drop 1 ++ [r], dropped := h.dropped + 1 } := by
  rw [record, if_neg hl, if_pos hfull]

theorem record_of_room {h : History} (hroom : h.records.length < h.limit) (r : Record) :
    h.record r = { h with records := h.records ++ [r] } := by
  rw [record, if_neg (by omega), if_neg (by omega)]

/-- The history after further records. -/
def recordAll (h : History) (rs : List Record) : History := rs.foldl History.record h

theorem recordAll_append (h : History) (rs more : List Record) :
    h.recordAll (rs ++ more) = (h.recordAll rs).recordAll more :=
  List.foldl_append

/-- What a history of a given limit keeps of a log: the latest records, as many as there are or as
the limit allows, and the number of the others. -/
def keeping (limit : Nat) (log : List Record) : History where
  records := log.drop (log.length - min limit log.length)
  limit
  dropped := log.length - min limit log.length

theorem withLimit_eq_keeping (limit : Nat) : withLimit limit = keeping limit [] := by
  simp only [withLimit, keeping, List.drop_nil, List.length_nil, Nat.zero_sub]

theorem length_keeping (limit : Nat) (log : List Record) :
    (keeping limit log).records.length = min limit log.length := by
  simp only [keeping, List.length_drop]
  omega

theorem record_keeping (limit : Nat) (log : List Record) (r : Record) :
    (keeping limit log).record r = keeping limit (log ++ [r]) := by
  have hlength := length_keeping limit log
  have hlog : (log ++ [r]).length = log.length + 1 := by
    rw [List.length_append, List.length_singleton]
  by_cases hl : limit = 0
  · rw [record_of_disabled hl]
    simp [keeping, hl]
  by_cases hfull : limit ≤ log.length
  · rw [record_of_full hl (hlength.trans (Nat.min_eq_left hfull))]
    simp only [keeping, hlog, History.mk.injEq, true_and]
    refine ⟨?_, by omega⟩
    rw [List.drop_drop, List.drop_append_of_le_length (by omega)]
    congr 2
    omega
  · rw [record_of_room (lt_of_eq_of_lt hlength (show min limit log.length < limit by omega))]
    simp only [keeping, hlog, History.mk.injEq, true_and]
    rw [show log.length - min limit log.length = 0 by omega,
      show log.length + 1 - min limit (log.length + 1) = 0 by omega]
    exact ⟨rfl, rfl⟩

theorem recordAll_keeping (limit : Nat) (log rs : List Record) :
    (keeping limit log).recordAll rs = keeping limit (log ++ rs) := by
  induction rs generalizing log with
  | nil => rw [List.append_nil]; rfl
  | cons r rs ih =>
    rw [recordAll, List.foldl_cons, record_keeping]
    exact (ih (log ++ [r])).trans (by rw [List.append_assoc, List.singleton_append])

end History

namespace Site

/-- What is recorded of entering a state. -/
def recordOf (s : Site ρ) (h : Handle) : Record :=
  { source := s.machine.current.key, target := h.key, step := s.machine.steps, time := s.clock }

/-- What is recorded of the transition that is made, if one is. -/
def recorded (s : Site ρ) : Option (Move × Handle) → List Record
  | some (_, h) => [s.recordOf h]
  | none => []

/-- Another history makes no difference to what comes of an attempt to enter a state. -/
theorem commit_withHistory (s : Site ρ) (history : History) (h : Handle) :
    (s.withHistory history).commit h =
      (s.commit h).map fun s' => s'.withHistory (history.record (s.recordOf h)) := by
  unfold commit
  by_cases ho : s.Owns h
  · have ho' : (s.withHistory history).Owns h := ho
    by_cases he : h.key = Key.error
    · simp only [ho, ho', he, not_true_eq_false, if_false, if_true]
      rfl
    · simp only [ho, ho', he, not_true_eq_false, if_false]
      rfl
  · have ho' : ¬ (s.withHistory history).Owns h := ho
    simp only [ho, ho', not_false_eq_true, if_true]
    rfl

theorem select_withHistory (s : Site ρ) (history : History) (h : Handle) :
    (s.withHistory history).select h =
      (s.select h).map fun s' => s'.withHistory (history.record (s.recordOf h)) := by
  unfold select
  by_cases hp : s.machine.progressed = true
  · rw [if_pos hp, if_pos (show (s.withHistory history).machine.progressed = true from hp)]
    rfl
  · rw [if_neg hp, if_neg (show ¬ (s.withHistory history).machine.progressed = true from hp),
      commit_withHistory]

theorem transit_withHistory (s : Site ρ) (history : History) (h : Handle) :
    (s.withHistory history).transit h =
      (s.transit h).map fun s' => s'.withHistory (history.record (s.recordOf h)) := by
  unfold transit
  rw [select_withHistory]
  cases s.select h <;> rfl

theorem enterBy_withHistory (s : Site ρ) (history : History) (how : Move) (h : Handle) :
    (s.withHistory history).enterBy how h =
      (s.enterBy how h).map fun s' => s'.withHistory (history.record (s.recordOf h)) := by
  cases how with
  | select => exact s.select_withHistory history h
  | transit => exact s.transit_withHistory history h
  | reset => exact s.commit_withHistory history h

theorem move_withHistory (s : Site ρ) (history : History) (how : Move) (target : Target) :
    (s.withHistory history).move how target =
      (s.move how target).map fun s' =>
        s'.withHistory (history.record (s.recordOf s'.machine.current)) := by
  have hr : (s.withHistory history).resolve target = s.resolve target := by cases target <;> rfl
  unfold move
  rw [hr]
  cases s.resolve target with
  | error e => rfl
  | ok h =>
    simp only [enterBy_withHistory]
    cases he : s.enterBy how h with
    | error e => rfl
    | ok s' =>
      obtain ⟨-, rfl⟩ := enterBy_eq_ok_iff.mp he
      rfl

/-- Does the same whatever the history holds, and adds what the transit that it ends with is recorded
as. -/
def Overlooks (s : Site ρ) (act : Site ρ → Result ρ Unit) : Prop :=
  ∀ history, act (s.withHistory history) =
    ((act s).1, (act s).2.withHistory (history.recordAll (s.recorded (transited? (act s)))))

theorem settle_transit_withHistory (s : Site ρ) (history : History) (h : Handle) :
    (s.withHistory history).settle ((s.withHistory history).transit h) =
      ((s.settle (s.transit h)).1, (s.settle (s.transit h)).2.withHistory
        (history.recordAll (s.recorded (transited? (s.settle (s.transit h)))))) := by
  rw [transit_withHistory]
  cases ht : s.transit h with
  | error e => rfl
  | ok s' =>
    obtain ⟨-, rfl⟩ := transit_eq_ok_iff.mp ht
    rfl

theorem settle_transitTo_withHistory (s : Site ρ) (history : History) (key : Key) :
    (s.withHistory history).settle ((s.withHistory history).transitTo key) =
      ((s.settle (s.transitTo key)).1, (s.settle (s.transitTo key)).2.withHistory
        (history.recordAll (s.recorded (transited? (s.settle (s.transitTo key)))))) := by
  rw [transitTo, move_withHistory]
  unfold transitTo
  cases s.move .transit (.key key) <;> rfl

theorem call_overlooks (s : Site ρ) (callee : Key) (argument : Option Value) (returnKey : Key) :
    s.Overlooks fun s => s.call callee argument returnKey := by
  intro history
  have hd : (s.withHistory history).machine.decode callee = s.machine.decode callee := rfl
  simp only [call, hd]
  cases s.machine.decode callee with
  | error e => rfl
  | ok h =>
    exact (s.withFrames (.opened returnKey argument :: s.machine.frames)).settle_transit_withHistory
      history h

theorem onTop_withHistory (s : Site ρ) (history : History)
    (f : Frame → Except MachineError Frame) :
    (s.withHistory history).onTop f = (s.onTop f).map fun s' => s'.withHistory history := by
  have hf : (s.withHistory history).machine.frames = s.machine.frames := rfl
  simp only [onTop, hf]
  cases s.machine.frames with
  | nil => rfl
  | cons top rest =>
    simp only
    cases f top <;> rfl

theorem onFrame_withHistory (s : Site ρ) (history : History) (depth : Nat)
    (f : Frame → Except MachineError Frame) :
    (s.withHistory history).onFrame depth f =
      (s.onFrame depth f).map fun s' => s'.withHistory history := by
  have hf : (s.withHistory history).machine.frameAt depth = s.machine.frameAt depth := rfl
  simp only [onFrame, hf]
  cases s.machine.frameAt depth with
  | error e => rfl
  | ok frame =>
    simp only
    cases f frame <;> rfl

theorem giveBack_overlooks (s : Site ρ) (value : Value) :
    s.Overlooks fun s => s.giveBack value := by
  intro history
  simp only [giveBack, onTop_withHistory]
  cases hw : s.onTop (writeResult value) with
  | error e => rfl
  | ok s' =>
    obtain ⟨frames, -, rfl⟩ := onTop_touches (fun _ _ => Frame.Persists.writeResult) hw
    exact (s.withFrames frames).settle_transitTo_withHistory history Key.pop

theorem settle_withHistory (s : Site ρ) (history : History) (r : Except MachineError (Site ρ)) :
    (s.withHistory history).settle (r.map fun s' => s'.withHistory history) =
      ((s.settle r).1, (s.settle r).2.withHistory history) := by
  cases r <;> rfl

theorem attach_withHistory (s : Site ρ) (history : History) (h : Handle) :
    (s.withHistory history).attach h =
      (s.attach h).map fun r => (r.1, r.2.withHistory history) := by
  have hb : (s.withHistory history).store.bind h (s.withHistory history).machine.id =
      s.store.bind h s.machine.id := rfl
  unfold attach
  rw [hb]
  split
  · rfl
  · cases s.store.bind h s.machine.id <;> rfl

/-- A request that neither reads the history nor writes to it by hand has the same answer and the
same effect whatever the history holds. -/
theorem answer_withHistory (s : Site ρ) (history : History) {op : Op} (hread : op ≠ .inspect)
    (hedit : ¬ op.EditsHistory) :
    (s.withHistory history).answer op =
      ((s.answer op).1, (s.answer op).2.withHistory
        (history.recordAll (s.recorded (s.committed? op)))) := by
  cases op with
  | inspect => exact absurd rfl hread
  | clearHistory | limitHistory | recordDirectly => exact absurd trivial hedit
  | fetch | keep | observe | resetStack | write => rfl
  | move how target =>
    simp only [answer, committed?, move_withHistory]
    cases s.move how target <;> rfl
  | call callee argument returnKey => exact s.call_overlooks callee argument returnKey history
  | giveBack value => exact s.giveBack_overlooks value history
  | attach h =>
    simp only [answer, attach_withHistory]
    cases s.attach h <;> rfl
  | putResult value | bindVar name value =>
    simp only [answer, onTop_withHistory]
    exact s.settle_withHistory history _
  | copyVar t source target =>
    have hv : (s.withHistory history).machine.var? t source = s.machine.var? t source := rfl
    simp only [answer, copyVar, hv]
    cases s.machine.var? t source with
    | none => rfl
    | some value =>
      simp only [onTop_withHistory]
      exact s.settle_withHistory history _
  | putResultAt depth value | bindVarAt depth name value =>
    simp only [answer, onFrame_withHistory]
    exact s.settle_withHistory history _
  | unbindVarAt depth name =>
    have hf : (s.withHistory history).machine.frameAt depth = s.machine.frameAt depth := rfl
    simp only [answer, unbindVarAt, hf]
    cases s.machine.frameAt depth <;> rfl
  | updateVar t name f =>
    have hv : (s.withHistory history).machine.var? t name = s.machine.var? t name := rfl
    simp only [answer, updateVar, hv]
    split <;> rfl
  | rebindVar name value =>
    have hf : (s.withHistory history).machine.frames = s.machine.frames := rfl
    simp only [answer, rebindVar, hf]
    split <;> rfl

/-- The same transition is made whatever the history holds. -/
theorem committed?_withHistory (s : Site ρ) (history : History) (op : Op) :
    (s.withHistory history).committed? op = s.committed? op := by
  cases op with
  | move how target =>
    simp only [committed?, move_withHistory]
    cases s.move how target <;> rfl
  | call callee argument returnKey =>
    simp only [committed?, s.call_overlooks callee argument returnKey history]
    rfl
  | giveBack value =>
    simp only [committed?, s.giveBack_overlooks value history]
    rfl
  | _ => rfl

end Site

/-- A built-in state does the same whatever the history holds. -/
theorem Behaviour.builtin_overlooks {b : Behaviour ρ} {act : Site ρ → Site.Result ρ Unit}
    (hb : b.builtin? = some act) (s : Site ρ) : s.Overlooks act := by
  intro history
  have hf : (s.withHistory history).machine.frames = s.machine.frames := rfl
  cases b with
  | constant | routine => cases hb
  | pop =>
    cases hb
    simp only [Builtin.pop, hf]
    cases s.machine.frames with
    | nil => rfl
    | cons top rest =>
      cases rest with
      | nil =>
        have hm := (s.withFrames []).move_withHistory history .transit (.key top.returnKey)
        simp only [Site.transitTo]
        rw [show (s.withHistory history).withFrames [] = (s.withFrames []).withHistory history
          from rfl, hm]
        cases (s.withFrames []).move .transit (.key top.returnKey) <;> rfl
      | cons caller below =>
        exact (s.withFrames _).settle_transitTo_withHistory history top.returnKey
  | iterate =>
    cases hb
    simp only [Builtin.iterate, hf]
    cases s.machine.frames with
    | nil => rfl
    | cons top rest =>
      simp only
      split
      · exact (s.withFrames _).settle_transitTo_withHistory history Key.iterateNext
      · rfl
  | iterateNext =>
    cases hb
    simp only [Builtin.iterateNext, hf]
    cases Builtin.source? s.machine.frames with
    | none => rfl
    | some source =>
      simp only
      cases source.next? with
      | none => exact s.settle_transitTo_withHistory history Key.pop
      | some taken =>
        simp only [Site.withFrames_frames]
        cases Builtin.body? (Stack.rebind Key.sourceVar
          (fun _ => some (.cursor taken.2)) s.machine.frames) with
        | none => rfl
        | some body =>
          exact (s.withFrames _).call_overlooks body (some taken.1) Key.iterateNext history

namespace Execution

/-- What is recorded of the transition that is made at this moment. A built-in state makes it under
the number of its own activation. -/
def recorded (e : Execution ρ) : List Record :=
  match e.activated? with
  | some _ => e.site.begun.recorded e.committed?
  | none => e.site.recorded e.committed?

/-- The same moment with another history. -/
def withHistory (e : Execution ρ) (history : History) : Execution ρ :=
  { e with site := e.site.withHistory history }

theorem activated?_withHistory (e : Execution ρ) (history : History) :
    (e.withHistory history).activated? = e.activated? := rfl

theorem committed?_withHistory (e : Execution ρ) (history : History) :
    (e.withHistory history).committed? = e.committed? := by
  have hf : (e.withHistory history).focus = e.focus := rfl
  unfold committed?
  rw [hf, activated?_withHistory]
  cases e.focus with
  | perform op go => exact e.site.committed?_withHistory history op
  | step go =>
    cases e.activated? with
    | none => rfl
    | some b =>
      simp only [Option.bind_some]
      cases hb : b.builtin? with
      | none => rfl
      | some act =>
        have hact := Behaviour.builtin_overlooks hb e.site.begun history
        simp only [Option.bind_some]
        rw [show (e.withHistory history).site.begun = e.site.begun.withHistory history from rfl,
          hact]
        rfl
  | _ => rfl

theorem recorded_withHistory (e : Execution ρ) (history : History) :
    (e.withHistory history).recorded = e.recorded := by
  unfold recorded
  rw [committed?_withHistory, activated?_withHistory]
  cases e.activated? <;> cases e.committed? <;> rfl

/-- A step does the same whatever the history holds. -/
theorem step_withHistory {e e' : Execution ρ} {go : Except MachineError Bool → Program ρ}
    (hf : e.focus = .step go) (next : e.next = .inl e') (history : History) :
    (e.withHistory history).next = .inl (e'.withHistory (history.recordAll e.recorded)) := by
  have hf' : (e.withHistory history).focus = .step go := hf
  cases ha : e.activated? with
  | some b =>
    rw [next_of_activated hf ha] at next
    cases next
    rw [next_of_activated (e := e.withHistory history) hf' ha]
    simp only [recorded, ha]
    cases hb : b.builtin? with
    | none =>
      have hnone : e.committed? = none := by
        simp only [committed?, hf, ha, Option.bind_some, hb]
        rfl
      rw [hnone]
      cases b with
      | pop | iterate | iterateNext => cases hb
      | constant | routine => rfl
    | some act =>
      have hsome : e.committed? = Site.transited? (act e.site.begun) := by
        simp only [committed?, hf, ha, Option.bind_some, hb]
      have hact := Behaviour.builtin_overlooks hb e.site.begun history
      rw [hsome, show (e.withHistory history).site.begun = e.site.begun.withHistory history from rfl]
      cases b with
      | constant | routine => cases hb
      | pop | iterate | iterateNext =>
        cases hb
        simp only [invoke, hact]
        rfl
  | none =>
    have hnone : e.committed? = none := by
      simp only [committed?, hf, ha, Option.bind_none]
    simp only [recorded, ha, hnone]
    simp only [activated?, hf] at ha
    have hd : (e.withHistory history).site.machine.demand = e.site.machine.demand := rfl
    simp only [Execution.next, hf, enterStep] at next
    simp only [Execution.next, hf', enterStep, hd]
    cases hdemand : e.site.machine.demand with
    | error error =>
      rw [hdemand] at next
      cases next
      rfl
    | ok due =>
      cases due with
      | true => simp [hdemand] at ha
      | false =>
        rw [hdemand] at next
        cases next
        rfl

end Execution

end StateEngine
