import StateEngine.Proofs.Commitment
import StateEngine.Proofs.Ledger

/-!
# What the moments of a run leave behind

A moment of a run can make one transition, and it makes it if the state that it names can be entered.
The current state of a machine is the one that the latest transition entered, its observers are those
that were registered so far, and under each key its table lists the latest addition. Each moment adds
its part to these three, and nothing else touches them.
-/

namespace StateEngine

variable {ρ : Type}

namespace Site

/-- The move that a request comes down to. -/
def aim? (s : Site ρ) : Op → Option (Move × Target)
  | .move how target => some (how, target)
  | .call callee _ _ => some (.transit, .key callee)
  | .giveBack value =>
    match s.onTop (writeResult value) with
    | .ok _ => some (.transit, .key Key.pop)
    | .error _ => none
  | _ => none

theorem committed?_move_eq_some_iff {s : Site ρ} {how : Move} {target : Target}
    {c : Move × Handle} : s.committed? (.move how target) = some c ↔
      ∃ h, s.resolve target = .ok h ∧ s.Admits how h ∧ c = (how, h) := by
  simp only [committed?]
  cases hm : s.move how target with
  | ok s' =>
    obtain ⟨h, hr, ha, rfl⟩ := move_eq_ok_iff.mp hm
    refine ⟨fun hc => ⟨h, hr, ha, (Option.some.inj hc).symm⟩, ?_⟩
    rintro ⟨g, hg, -, rfl⟩
    rw [hr] at hg
    cases hg
    rfl
  | error error =>
    refine ⟨fun hc => (by cases hc), ?_⟩
    rintro ⟨h, hr, ha, -⟩
    have hok := move_eq_ok_iff.mpr ⟨h, hr, ha, rfl⟩
    rw [hm] at hok
    cases hok

/-- The frames make no difference to whether a move goes through. -/
theorem committed?_move_withFrames (s : Site ρ) (frames : Stack) (how : Move) (target : Target) :
    (s.withFrames frames).committed? (.move how target) = s.committed? (.move how target) := by
  refine Option.ext fun c => ?_
  rw [committed?_move_eq_some_iff, committed?_move_eq_some_iff]
  cases target <;> rfl

theorem transited?_transitTo (s : Site ρ) (frames : Stack) (key : Key) :
    transited? ((s.withFrames frames).settle ((s.withFrames frames).transitTo key)) =
      s.committed? (.move .transit (.key key)) := by
  rw [← s.committed?_move_withFrames frames]
  simp only [transitTo, committed?]
  cases (s.withFrames frames).move .transit (.key key) <;> rfl

theorem transited?_call (s : Site ρ) (callee : Key) (argument : Option Value) (returnKey : Key) :
    transited? (s.call callee argument returnKey) =
      s.committed? (.move .transit (.key callee)) := by
  rw [← s.transited?_transitTo (.opened returnKey argument :: s.machine.frames)]
  have hd : (s.withFrames (.opened returnKey argument :: s.machine.frames)).machine.decode callee =
      s.machine.decode callee := rfl
  simp only [call, transitTo, move, resolve, hd]
  cases s.machine.decode callee <;> rfl

/-- A request makes the transition that it comes down to. -/
theorem committed?_eq (s : Site ρ) (op : Op) :
    s.committed? op = (s.aim? op).bind fun aim => s.committed? (.move aim.1 aim.2) := by
  cases op with
  | move how target => rfl
  | call callee argument returnKey => exact s.transited?_call callee argument returnKey
  | giveBack value =>
    simp only [committed?, giveBack, aim?]
    cases hw : s.onTop (writeResult value) with
    | error error => rfl
    | ok s₁ =>
      obtain ⟨frames, -, rfl⟩ := onTop_touches (fun _ _ => Frame.Persists.writeResult) hw
      exact s.transited?_transitTo frames Key.pop
  | _ => rfl

end Site

/-- The key that a built-in state goes to. -/
def Builtin.target? (frames : Stack) : Behaviour ρ → Option Key
  | .pop => frames.head?.map Frame.returnKey
  | .iterate =>
    match frames.head?.bind Frame.argument with
    | some (.iteration ..) => some Key.iterateNext
    | _ => none
  | .iterateNext =>
    match source? frames with
    | none => none
    | some source =>
      match source.next? with
      | none => some Key.pop
      | some _ => body? frames
  | _ => none

/-- A built-in state makes a transit to the key that it goes to. -/
theorem Behaviour.transited?_builtin {b : Behaviour ρ} {act : Site ρ → Site.Result ρ Unit}
    (hb : b.builtin? = some act) (s : Site ρ) :
    Site.transited? (act s) = (Builtin.target? s.machine.frames b).bind fun key =>
      s.committed? (.move .transit (.key key)) := by
  cases b with
  | constant | routine => cases hb
  | pop =>
    cases hb
    cases hframes : s.machine.frames with
    | nil =>
      simp only [Builtin.pop, hframes]
      rfl
    | cons top rest =>
      have ht := s.transited?_transitTo (Builtin.delivered top.result rest) top.returnKey
      rw [Builtin.pop_of_frames hframes]
      refine Eq.trans ?_ ht
      cases (s.withFrames (Builtin.delivered top.result rest)).transitTo top.returnKey <;> rfl
  | iterate =>
    cases hb
    unfold Builtin.iterate
    cases hframes : s.machine.frames with
    | nil => rfl
    | cons top rest =>
      simp only [Builtin.target?, List.head?_cons, Option.bind_some]
      cases top.argument with
      | none => rfl
      | some argument =>
        cases argument with
        | iteration source body => exact s.transited?_transitTo _ Key.iterateNext
        | _ => rfl
  | iterateNext =>
    cases hb
    cases hs : Builtin.source? s.machine.frames with
    | none =>
      simp only [Builtin.iterateNext, Builtin.target?, hs]
      rfl
    | some source =>
      cases hn : source.next? with
      | none =>
        rw [Builtin.iterateNext_of_exhausted hs hn]
        simp only [Builtin.target?, hs, hn]
        exact s.transited?_transitTo s.machine.frames Key.pop
      | some taken =>
        cases hbody : Builtin.body? s.machine.frames with
        | none =>
          simp only [Builtin.iterateNext, Builtin.target?, hs, hn, Site.withFrames_frames,
            Builtin.body?_rebind_source, hbody]
          rfl
        | some body =>
          rw [Builtin.iterateNext_of_next hs hn hbody, Site.transited?_call,
            Site.committed?_move_withFrames]
          simp only [Builtin.target?, hs, hn, hbody, Option.bind_some]

namespace Execution

/-- The move that this moment comes down to. -/
def aim? (e : Execution ρ) : Option (Move × Target) :=
  match e.focus with
  | .perform op _ => e.site.aim? op
  | .step _ => e.activated?.bind fun b =>
      (Builtin.target? e.site.machine.frames b).map fun key => (.transit, .key key)
  | _ => none

/-- The site on which a transition of this moment is made. A built-in state makes it in the
activation that has just begun. -/
def setting (e : Execution ρ) : Site ρ :=
  match e.focus with
  | .step _ => e.site.begun
  | _ => e.site

/-- A transition is made when there is a state to be entered that can be entered. -/
theorem committed?_eq_some_iff {e : Execution ρ} {how : Move} {h : Handle} :
    e.committed? = some (how, h) ↔ ∃ target, e.aim? = some (how, target) ∧
      e.setting.resolve target = .ok h ∧ e.setting.Admits how h := by
  have hmove : ∀ {s : Site ρ} {aim : Option (Move × Target)},
      (aim.bind fun aim => s.committed? (.move aim.1 aim.2)) = some (how, h) ↔
        ∃ target, aim = some (how, target) ∧ s.resolve target = .ok h ∧ s.Admits how h := by
    intro s aim
    cases aim with
    | none => simp
    | some aim =>
      obtain ⟨how', target⟩ := aim
      rw [Option.bind_some, Site.committed?_move_eq_some_iff]
      constructor
      · rintro ⟨g, hr, ha, ⟨⟩⟩
        exact ⟨target, rfl, hr, ha⟩
      · rintro ⟨_, ⟨⟩, hr, ha⟩
        exact ⟨h, hr, ha, rfl⟩
  cases hf : e.focus with
  | done | fail | panic | wrap | go | finish => simp [committed?, aim?, hf]
  | perform op go =>
    simp only [committed?, aim?, setting, hf]
    rw [e.site.committed?_eq op]
    exact hmove
  | step go =>
    simp only [committed?, aim?, setting, hf]
    cases ha : e.activated? with
    | none => simp
    | some b =>
      rw [Option.bind_some, Option.bind_some]
      cases hb : b.builtin? with
      | none =>
        cases b with
        | pop | iterate | iterateNext => cases hb
        | constant | routine => simp [Builtin.target?]
      | some act =>
        rw [Option.bind_some, Behaviour.transited?_builtin hb]
        refine Iff.trans ?_ hmove
        rw [Option.bind_map]
        rfl

end Execution

/-- Whom a request registers as an observer. -/
def Op.observed : Op → List String
  | .observe observer => [observer]
  | _ => []

/-- The state that a request lists under a key. -/
def Site.attached? (s : Site ρ) (key : Key) : Op → Option Handle
  | .attach h =>
    match s.attach h with
    | .ok _ => if h.key = key then some h else none
    | .error _ => none
  | _ => none

/-- A machine after it has entered a state, if it did, and gained observers and entries in its
table. -/
structure Machine.Becomes (m m' : Machine) (entered : Option Handle) (observed : List String)
    (attached : Key → Option Handle) : Prop where
  current : m'.current = entered.getD m.current
  observers : m'.observers = m.observers ++ observed
  table : ∀ key, m'.table.get? key = (attached key).or (m.table.get? key)

namespace Machine.Becomes

theorem still {m m' : Machine} (current : m'.current = m.current)
    (observers : m'.observers = m.observers) (table : m'.table = m.table) :
    m.Becomes m' none [] fun _ => none where
  current := current
  observers := observers.trans (List.append_nil _).symm
  table _ := table ▸ rfl

theorem refl (m : Machine) : m.Becomes m none [] fun _ => none := still rfl rfl rfl

theorem trans {m m₁ m₂ : Machine} {entered entered' : Option Handle}
    {observed observed' : List String} {attached attached' : Key → Option Handle}
    (h : m.Becomes m₁ entered observed attached)
    (h' : m₁.Becomes m₂ entered' observed' attached') :
    m.Becomes m₂ (entered'.or entered) (observed ++ observed')
      fun key => (attached' key).or (attached key) where
  current := by
    rw [h'.current, h.current]
    cases entered' <;> rfl
  observers := by rw [h'.observers, h.observers, List.append_assoc]
  table key := by rw [h'.table, h.table, Option.or_assoc]

end Machine.Becomes

namespace Site

/-- Writing to the frames leaves the rest of a machine alone. -/
theorem becomes_settle {s : Site ρ} {r : Except MachineError (Site ρ)}
    (h : ∀ s', r = .ok s' → ∃ frames, Stack.Touched s.machine.frames frames ∧
      s' = s.withFrames frames) :
    s.machine.Becomes (s.settle r).2.machine none [] fun _ => none := by
  cases r with
  | error e => exact .refl _
  | ok s' =>
    obtain ⟨frames, -, rfl⟩ := h s' rfl
    exact .still rfl rfl rfl

theorem Concludes.becomes {s : Site ρ} {r : Result ρ Unit} (h : s.Concludes r) :
    s.machine.Becomes r.2.machine ((transited? r).map Prod.snd) [] fun _ => none := by
  cases h with
  | entered => exact ⟨rfl, (List.append_nil _).symm, fun _ => rfl⟩
  | failed => exact .still rfl rfl rfl

/-- A request adds to its machine the state that it enters, the observer that it registers and the
state that it lists. -/
theorem answer_becomes (s : Site ρ) (op : Op) :
    s.machine.Becomes (s.answer op).2.machine ((s.committed? op).map Prod.snd) op.observed
      (s.attached? · op) := by
  cases op with
  | inspect | fetch | keep | write | clearHistory | limitHistory | recordDirectly | resetStack =>
    exact .still rfl rfl rfl
  | observe observer => exact ⟨rfl, rfl, fun _ => rfl⟩
  | move how target =>
    simp only [answer, committed?]
    cases hm : s.move how target with
    | error error => exact .refl _
    | ok s' =>
      obtain ⟨g, -, -, rfl⟩ := move_eq_ok_iff.mp hm
      exact ⟨rfl, (List.append_nil _).symm, fun _ => rfl⟩
  | attach h =>
    simp only [answer, attached?]
    cases ha : s.attach h with
    | error error => exact .refl _
    | ok r =>
      obtain ⟨-, -, rfl⟩ := attach_eq_ok_iff.mp ha
      refine ⟨rfl, (List.append_nil _).symm, fun key => ?_⟩
      rw [Table.get?_insert]
      by_cases hkey : key = h.key
      · rw [if_pos hkey, if_pos hkey.symm]
        rfl
      · rw [if_neg hkey, if_neg fun heq => hkey heq.symm]
        rfl
  | call callee argument returnKey =>
    exact (Concludes.of_call s s.machine.frames callee argument returnKey).becomes
  | giveBack value => exact (Concludes.of_giveBack s value).becomes
  | putResult value =>
    exact becomes_settle fun _ h => onTop_touches (fun _ _ => Frame.Persists.writeResult) h
  | bindVar name value => exact becomes_settle fun _ h => onTop_touches (bind_persists name value) h
  | copyVar t source target =>
    refine becomes_settle fun s' h => ?_
    unfold copyVar at h
    split at h
    · cases h
    · exact onTop_touches (bind_persists target _) h
  | putResultAt depth value =>
    exact becomes_settle fun _ h => onFrame_touches (fun _ _ => Frame.Persists.writeResult) h
  | bindVarAt depth name value =>
    exact becomes_settle fun _ h => onFrame_touches (bind_persists name value) h
  | unbindVarAt depth name =>
    simp only [answer, unbindVarAt]
    split <;> exact .still rfl rfl rfl
  | updateVar t name f =>
    simp only [answer, updateVar]
    split <;> exact .still rfl rfl rfl
  | rebindVar name value =>
    simp only [answer, rebindVar]
    split <;> exact .still rfl rfl rfl

end Site

namespace Execution

/-- The state that is entered at this moment. -/
def entered? (e : Execution ρ) : Option Handle := e.committed?.map Prod.snd

/-- The observers that are registered at this moment. -/
def observed (e : Execution ρ) : List String :=
  match e.focus with
  | .perform op _ => op.observed
  | _ => []

/-- The state that comes to be listed under a key at this moment. -/
def attached? (e : Execution ρ) (key : Key) : Option Handle :=
  match e.focus with
  | .perform op _ => e.site.attached? key op
  | _ => none

/-- Observers are registered and states are listed by request only. -/
theorem becomes_of_no_request {e : Execution ρ} {m : Machine}
    (hop : e.focus.request? = none)
    (h : e.site.machine.Becomes m e.entered? [] fun _ => none) :
    e.site.machine.Becomes m e.entered? e.observed e.attached? := by
  have hobserved : e.observed = [] := by
    unfold observed
    split
    · rename_i op go hf
      rw [hf] at hop
      cases hop
    · rfl
  have hattached : e.attached? = fun _ => none := by
    funext key
    unfold attached?
    split
    · rename_i op go hf
      rw [hf] at hop
      cases hop
    · rfl
  rw [hobserved, hattached]
  exact h

theorem next_becomes {e e' : Execution ρ} (next : e.next = .inl e') :
    e.site.machine.Becomes e'.site.machine e.entered? e.observed e.attached? := by
  have hy := next_yields next
  generalize e'.site = s' at hy
  cases hy with
  | performed hf =>
    unfold attached?
    simp only [entered?, committed?, observed, hf]
    exact e.site.answer_becomes _
  | idle hop ha =>
    refine becomes_of_no_request hop ?_
    rw [entered?, committed?_of_idle hop ha]
    exact .refl _
  | wrapped hf =>
    refine becomes_of_no_request (by rw [hf]; rfl) ?_
    simp only [entered?, committed?, hf]
    exact .refl _
  | invoked ha hb =>
    refine becomes_of_no_request (request?_of_activated ha) ?_
    rw [entered?, committed?_of_activated ha, hb]
    exact .still rfl rfl rfl
  | acted ha hb =>
    refine becomes_of_no_request (request?_of_activated ha) ?_
    rw [entered?, committed?_of_activated ha, hb]
    obtain ⟨current, observers, table⟩ := (Behaviour.builtin_concludes hb e.site.begun).becomes
    exact ⟨current, observers, table⟩

/-- The end of a program does nothing to its machine. -/
theorem becomes_of_ended {e : Execution ρ} {outcome : Outcome ρ} (h : e.next = .inr outcome) :
    e.site.machine.Becomes e.site.machine e.entered? e.observed e.attached? := by
  have hop : e.focus.request? = none := by
    rcases ended_cases h with ⟨_, -, hf, -⟩ | ⟨_, -, hf, -⟩ | ⟨_, -, hf⟩ <;> rw [hf] <;> rfl
  refine becomes_of_no_request hop ?_
  rw [entered?, committed?_of_ended h]
  exact .refl _

theorem findSome?_cons {α : Type} (f : Execution ρ → Option α) (x : Execution ρ)
    (past : List (Execution ρ)) : (x :: past).findSome? f = (f x).or (past.findSome? f) := by
  rw [List.findSome?_cons]
  cases f x <;> rfl

/-- At every moment a machine is what the moments before it have made of it. -/
theorem Run.becomes {first e : Execution ρ} {past : List (Execution ρ)}
    (run : Run first past e) :
    first.site.machine.Becomes e.site.machine (past.findSome? entered?)
      (past.reverse.flatMap observed) fun key => past.findSome? (attached? · key) := by
  have hlater : ∀ {past : List (Execution ρ)} {x : Execution ρ} {m : Machine},
      first.site.machine.Becomes x.site.machine (past.findSome? entered?)
        (past.reverse.flatMap observed) (fun key => past.findSome? (attached? · key)) →
      x.site.machine.Becomes m x.entered? x.observed x.attached? →
      first.site.machine.Becomes m ((x :: past).findSome? entered?)
        ((x :: past).reverse.flatMap observed)
        (fun key => (x :: past).findSome? (attached? · key)) := by
    intro past x m h h'
    simp only [findSome?_cons, List.reverse_cons, List.flatMap_append, List.flatMap_singleton]
    exact h.trans h'
  induction run with
  | start => exact .refl _
  | step _ _ next ih => exact hlater ih (next_becomes next)
  | again p _ next ih => exact hlater ih (becomes_of_ended next)
  | meanwhile _ _ _ _ ih => exact ih

end Execution

end StateEngine
