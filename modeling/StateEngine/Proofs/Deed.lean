import StateEngine.Execution
import StateEngine.Proofs.Growth
import StateEngine.Proofs.StackChange

/-!
# What one moment of a run can do

`Site.Did` lists everything that a request can do to a site, and `Execution.Deed` everything that
one small step can do. What holds along a run is derived from these lists alone.
-/

namespace StateEngine

variable {ρ : Type}

/-- A request that writes to the history by hand. -/
def Op.EditsHistory : Op → Prop
  | .clearHistory | .limitHistory _ | .recordDirectly .. => True
  | _ => False

/-- A request that enters a state whatever was entered before. -/
def Op.Resets : Op → Prop
  | .move .reset _ => True
  | _ => False

/-- A request for a state by its handle names a state that was made. -/
def Op.Honest (store : Store ρ) : Op → Prop
  | .move _ (.handle h) => store.Knows h
  | .attach h => store.Knows h
  | _ => True

namespace Site

/-- What a request does to the stack. -/
def stackEvent (s : Site ρ) : Op → Option StackEvent
  | .call callee argument returnKey =>
    if s.machine.table.contains callee then some (.opened returnKey argument) else none
  | .resetStack => some .renewed
  | _ => none

/-- What a request can do to a site. -/
inductive Did (s : Site ρ) : Op → Site ρ → Prop where
  | nothing {op : Op} : s.stackEvent op = none → Did s op s
  | noted {op : Op} (observers : List String) (journal : List Entry) (shelf : Table Handle) :
      s.stackEvent op = none →
      Did s op { s with machine := { s.machine with observers }, journal, shelf }
  | edited {op : Op} (history : History) : op.EditsHistory → s.stackEvent op = none →
      Did s op (s.withHistory history)
  | moved {how : Move} {target : Target} {h : Handle} : s.resolve target = .ok h →
      s.Admits how h → Did s (.move how target) (s.entered how h)
  | attached {h : Handle} : ¬ Key.isReserved h.key → s.store.owner? h = none →
      Did s (.attach h)
        { s with
          store := s.store.setOwner h s.machine.id
          machine := { s.machine with table := s.machine.table.insert h.key h } }
  /-- Changes the stack and may then make a transit. -/
  | stacked {op : Op} {frames : Stack} {s' : Site ρ} :
      Stack.Change (s.stackEvent op) s.machine.frames frames → (s.withFrames frames).Leads s' →
      Did s op s'

theorem onTop_touches {s s' : Site ρ} {f : Frame → Except MachineError Frame}
    (hf : ∀ a b, f a = .ok b → a.Persists b) (h : s.onTop f = .ok s') :
    ∃ frames, Stack.Touched s.machine.frames frames ∧ s' = s.withFrames frames := by
  unfold onTop at h
  split at h
  · cases h
  · rename_i top rest hfr
    cases hft : f top with
    | error e => simp [hft] at h
    | ok after =>
      simp only [hft, Except.ok.injEq] at h
      exact ⟨after :: rest, hfr ▸ Stack.touched_top (hf top after hft) rest, h.symm⟩

theorem onFrame_touches {s s' : Site ρ} {depth : Nat} {f : Frame → Except MachineError Frame}
    (hf : ∀ a b, f a = .ok b → a.Persists b) (h : s.onFrame depth f = .ok s') :
    ∃ frames, Stack.Touched s.machine.frames frames ∧ s' = s.withFrames frames := by
  unfold onFrame Machine.frameAt at h
  cases hd : s.machine.frames[depth]? with
  | none => simp [hd] at h
  | some frame =>
    simp only [hd] at h
    cases hft : f frame with
    | error e => simp [hft] at h
    | ok after =>
      simp only [hft, Except.ok.injEq] at h
      exact ⟨_, Stack.touched_set hd (hf frame after hft), h.symm⟩

theorem bind_persists (name : String) (value : Option Value) (a b : Frame)
    (h : (Except.ok (a.bind name value) : Except MachineError Frame) = .ok b) : a.Persists b := by
  cases h
  exact .bind a name value

theorem did_settle {s : Site ρ} {op : Op} {r : Except MachineError (Site ρ)}
    (he : s.stackEvent op = none) (h : ∀ s', r = .ok s' → ∃ frames,
      Stack.Touched s.machine.frames frames ∧ s' = s.withFrames frames) :
    s.Did op (s.settle r).2 := by
  cases r with
  | error e => exact .nothing he
  | ok s' =>
    obtain ⟨frames, ht, rfl⟩ := h s' rfl
    exact .stacked (he ▸ .kept ht) .stays

theorem did_rebind {s : Site ρ} {op : Op} (he : s.stackEvent op = none) (name : String)
    (f : Option Value → Option Value) :
    s.Did op (s.withFrames (Stack.rebind name f s.machine.frames)) :=
  .stacked (he ▸ .kept (Stack.touched_rebind s.machine.frames name f)) .stays

theorem call_leads (s : Site ρ) (callee : Key) (argument : Option Value) (returnKey : Key) :
    (s.machine.table.contains callee = false ∧ (s.call callee argument returnKey).2 = s) ∨
      (s.machine.table.contains callee = true ∧
        (s.withFrames (.opened returnKey argument :: s.machine.frames)).Leads
          (s.call callee argument returnKey).2) := by
  unfold call
  cases hk : s.machine.table.get? callee with
  | none =>
    rw [Machine.decode_of_get?_eq_none hk]
    exact .inl ⟨by rw [Table.contains, hk]; rfl, rfl⟩
  | some h =>
    rw [Machine.decode_eq_ok_iff.mpr hk]
    exact .inr ⟨by rw [Table.contains, hk]; rfl, leads_settle fun s' ht => leads_transit hk ht⟩

/-- A call that succeeds has pushed its frame and entered the callee. -/
theorem entered_of_call {s s' : Site ρ} {callee returnKey : Key} {argument : Option Value}
    (h : s.call callee argument returnKey = (.ok (), s')) :
    ∃ g, s.machine.table.get? callee = some g ∧
      s' = (s.withFrames (.opened returnKey argument :: s.machine.frames)).entered .transit g := by
  unfold call at h
  cases hk : s.machine.table.get? callee with
  | none =>
    rw [Machine.decode_of_get?_eq_none hk] at h
    cases h
  | some g =>
    simp only [Machine.decode_eq_ok_iff.mpr hk] at h
    cases ht : (s.withFrames (.opened returnKey argument :: s.machine.frames)).transit g with
    | error e => simp [ht, settle] at h
    | ok s'' =>
      simp only [ht, settle, Prod.mk.injEq, true_and] at h
      obtain ⟨-, heq⟩ := transit_eq_ok_iff.mp ht
      exact ⟨g, rfl, h ▸ heq⟩

theorem call_did (s : Site ρ) (callee : Key) (argument : Option Value) (returnKey : Key) :
    s.Did (.call callee argument returnKey) (s.call callee argument returnKey).2 := by
  rcases s.call_leads callee argument returnKey with ⟨hk, hs⟩ | ⟨hk, hl⟩
  · rw [hs]
    exact .nothing (by simp [stackEvent, hk])
  · refine .stacked ?_ hl
    rw [stackEvent, if_pos hk]
    exact .opened (.refl _)

theorem giveBack_did (s : Site ρ) (value : Value) :
    s.Did (.giveBack value) (s.giveBack value).2 := by
  unfold giveBack
  cases hw : s.onTop (writeResult value) with
  | error e => exact .nothing rfl
  | ok s₁ =>
    obtain ⟨frames, ht, rfl⟩ := onTop_touches (fun _ _ => Frame.Persists.writeResult) hw
    exact .stacked (.kept ht) (leads_settle fun s' h => leads_transitTo h)

theorem attach_eq_ok_iff {s : Site ρ} {h : Handle} {r : Option Handle × Site ρ} :
    s.attach h = .ok r ↔ ¬ Key.isReserved h.key ∧ s.store.owner? h = none ∧
      r = (s.machine.table.get? h.key,
        { s with
          store := s.store.setOwner h s.machine.id
          machine := { s.machine with table := s.machine.table.insert h.key h } }) := by
  unfold attach
  by_cases hk : Key.isReserved h.key
  · simp [hk]
  · cases hb : s.store.bind h s.machine.id with
    | error e =>
      have hbound : s.store.owner? h ≠ none := fun hfree => by
        rw [Store.bind_eq_ok_iff.mpr ⟨hfree, rfl⟩] at hb
        cases hb
      simp [hk, hbound]
    | ok store =>
      obtain ⟨hfree, rfl⟩ := Store.bind_eq_ok_iff.mp hb
      simp [hk, hfree, eq_comm]

/-- A state is refused for its key if that is reserved, and otherwise for the owner it has. -/
theorem attach_eq_error_iff {s : Site ρ} {h : Handle} {e : MachineError} :
    s.attach h = .error e ↔
      (Key.isReserved h.key = true ∧ e = .reservedKey h.key) ∨
        (Key.isReserved h.key = false ∧
          ∃ owner, s.store.owner? h = some owner ∧ e = .alreadyBound h.key owner) := by
  unfold attach Store.bind
  cases Key.isReserved h.key with
  | true => simp [eq_comm]
  | false => cases s.store.owner? h <;> simp [eq_comm]

/-- Every request does something on the list. -/
theorem answer_did (s : Site ρ) (op : Op) : s.Did op (s.answer op).2 := by
  cases op with
  | inspect | fetch => exact .nothing rfl
  | observe | write | keep => exact .noted _ _ _ rfl
  | clearHistory | limitHistory | recordDirectly => exact .edited _ trivial rfl
  | move how target =>
    cases hm : s.move how target with
    | error e =>
      simp only [answer, hm]
      exact .nothing rfl
    | ok s' =>
      obtain ⟨h, hr, ha, rfl⟩ := move_eq_ok_iff.mp hm
      simp only [answer, hm]
      exact .moved hr ha
  | attach h =>
    cases ha : s.attach h with
    | error e =>
      simp only [answer, ha]
      exact .nothing rfl
    | ok r =>
      obtain ⟨hk, hfree, rfl⟩ := attach_eq_ok_iff.mp ha
      simp only [answer, ha]
      exact .attached hk hfree
  | call callee argument returnKey => exact s.call_did callee argument returnKey
  | giveBack value => exact s.giveBack_did value
  | putResult value =>
    exact did_settle rfl fun s' h => onTop_touches (fun _ _ => Frame.Persists.writeResult) h
  | bindVar name value =>
    exact did_settle rfl fun s' h => onTop_touches (bind_persists name value) h
  | copyVar t source target =>
    refine did_settle rfl fun s' h => ?_
    unfold copyVar at h
    split at h
    · cases h
    · exact onTop_touches (bind_persists target _) h
  | putResultAt depth value =>
    exact did_settle rfl fun s' h => onFrame_touches (fun _ _ => Frame.Persists.writeResult) h
  | bindVarAt depth name value =>
    exact did_settle rfl fun s' h => onFrame_touches (bind_persists name value) h
  | unbindVarAt depth name =>
    simp only [answer, unbindVarAt, Machine.frameAt]
    cases hd : s.machine.frames[depth]? with
    | none => exact .nothing rfl
    | some frame => exact .stacked (.kept (Stack.touched_set hd (.unbind frame name))) .stays
  | updateVar t name f =>
    simp only [answer, updateVar]
    split
    · exact did_rebind rfl name _
    · exact .nothing rfl
  | rebindVar name value =>
    simp only [answer, rebindVar]
    split
    · exact did_rebind rfl name _
    · exact .nothing rfl
  | resetStack => exact .stacked .renewed .stays

theorem Did.grows {s s' : Site ρ} {op : Op} (h : s.Did op s') : s.store.Grows s'.store := by
  cases h with
  | nothing | noted | edited | moved => exact .refl _
  | attached _ hfree => exact Store.grows_setOwner hfree _
  | stacked _ hl => exact hl.store_eq ▸ .refl _

/-- A request makes no states and changes none. -/
theorem Did.all {s s' : Site ρ} {op : Op} {P : Behaviour ρ → Prop} (h : s.Did op s')
    (all : s.store.All P) : s'.store.All P := by
  cases h with
  | nothing | noted | edited | moved => exact all
  | attached => exact all.setOwner _ _
  | stacked _ hl => exact hl.store_eq ▸ all

theorem Did.change {s s' : Site ρ} {op : Op} (h : s.Did op s') :
    Stack.Change (s.stackEvent op) s.machine.frames s'.machine.frames := by
  cases h with
  | nothing he => exact he ▸ .refl _
  | noted _ _ _ he => exact he ▸ .refl _
  | edited _ _ he => exact he ▸ .refl _
  | moved | attached => exact .refl _
  | stacked hc hl => exact hl.frames_eq ▸ hc

/-- The site at the start of an activation. -/
def begun (s : Site ρ) : Site ρ := { s with machine := s.machine.activate }

def currentBehaviour (s : Site ρ) : Behaviour ρ :=
  (s.store.behaviour? s.machine.current).getD (.constant s.machine.current.key)

end Site

namespace Builtin

/-- The frames below a removed one, once the innermost of them has its result. -/
def delivered (result : Option Value) : Stack → Stack
  | [] => []
  | caller :: below => caller.bind Key.resultVar result :: below

theorem touched_delivered (result : Option Value) (rest : Stack) :
    Stack.Touched rest (delivered result rest) := by
  cases rest with
  | nil => exact .nil
  | cons caller below => exact Stack.touched_top (.bind caller _ _) below

theorem pop_leads {s : Site ρ} {top : Frame} {rest : Stack} (h : s.machine.frames = top :: rest) :
    (s.withFrames (delivered top.result rest)).Leads (pop s).2 := by
  unfold pop
  rw [h]
  cases rest with
  | cons caller below =>
    exact Site.leads_settle fun s' ht => Site.leads_transitTo ht
  | nil =>
    cases ht : (s.withFrames []).transitTo top.returnKey with
    | ok s' =>
      simp only [ht]
      exact Site.leads_transitTo ht
    | error e =>
      simp only [ht]
      exact .stays

/-- Whatever becomes of the activation, the stack changes by what `stackEvent` names, and a
transit may follow. -/
theorem pop_change (s : Site ρ) : ∃ frames,
    Stack.Change (stackEvent s .pop) s.machine.frames frames ∧
      (s.withFrames frames).Leads (pop s).2 := by
  by_cases hf : s.machine.frames = []
  · have hp : pop s = (.error .emptyStack, s) := by simp only [pop, hf]
    refine ⟨s.machine.frames, ?_, hp ▸ .stays⟩
    rw [stackEvent, if_pos hf]
    exact .refl _
  · obtain ⟨top, rest, htop⟩ := List.exists_cons_of_ne_nil hf
    refine ⟨delivered top.result rest, ?_, pop_leads htop⟩
    rw [stackEvent, if_neg hf, htop]
    exact .closed (touched_delivered top.result rest)

theorem iterate_change (s : Site ρ) : ∃ frames,
    Stack.Change (stackEvent s .iterate) s.machine.frames frames ∧
      (s.withFrames frames).Leads (iterate s).2 := by
  by_cases hf : s.machine.frames = []
  · have hi : iterate s = (.error .emptyStack, s) := by simp only [iterate, hf]
    exact ⟨s.machine.frames, .refl _, hi ▸ .stays⟩
  · obtain ⟨top, rest, htop⟩ := List.exists_cons_of_ne_nil hf
    rw [iterate, htop]
    simp only
    split
    · refine ⟨_, ?_, Site.leads_settle fun s' ht => Site.leads_transitTo ht⟩
      exact .taken rfl rfl rfl
    · refine ⟨_, ?_, .stays⟩
      exact .taken rfl rfl rfl

theorem iterateNext_of_exhausted {s : Site ρ} {source : Cursor}
    (hs : source? s.machine.frames = some source) (hn : source.next? = none) :
    iterateNext s = s.settle (s.transitTo Key.pop) := by
  simp only [iterateNext, hs, hn]

/-- An iteration with an element left moves its cursor and calls the body with the element. -/
theorem iterateNext_of_next {s : Site ρ} {source rest : Cursor} {element : Value} {body : Key}
    (hs : source? s.machine.frames = some source) (hn : source.next? = some (element, rest))
    (hb : body? s.machine.frames = some body) :
    iterateNext s =
      (s.withFrames (Stack.rebind Key.sourceVar (fun _ => some (.cursor rest))
        s.machine.frames)).call body (some element) Key.iterateNext := by
  simp only [iterateNext, hs, hn, Site.withFrames_frames, body?_rebind_source, hb]

theorem iterateNext_change (s : Site ρ) : ∃ frames,
    Stack.Change (stackEvent s .iterateNext) s.machine.frames frames ∧
      (s.withFrames frames).Leads (iterateNext s).2 := by
  cases hs : source? s.machine.frames with
  | none =>
    simp only [iterateNext, stackEvent, nextCall?, hs]
    exact ⟨s.machine.frames, .refl _, .stays⟩
  | some source =>
    cases hn : source.next? with
    | none =>
      have he : stackEvent s .iterateNext = none := by
        unfold stackEvent nextCall?
        rw [hs]
        cases body? s.machine.frames with
        | none => rfl
        | some body => simp only [hn, Option.map_none]
      rw [he, iterateNext_of_exhausted hs hn]
      exact ⟨s.machine.frames, .refl _, Site.leads_settle fun s' ht => Site.leads_transitTo ht⟩
    | some taken =>
      obtain ⟨element, rest⟩ := taken
      have touched := Stack.touched_rebind s.machine.frames Key.sourceVar
        fun _ => some (.cursor rest)
      cases hb : body? s.machine.frames with
      | none =>
        simp only [iterateNext, stackEvent, nextCall?, hs, hn, hb, Site.withFrames_frames,
          body?_rebind_source]
        exact ⟨_, .kept touched, .stays⟩
      | some body =>
        simp only [iterateNext_of_next hs hn hb, stackEvent, nextCall?, hs, hn, hb, Option.map_some]
        rcases Site.call_leads (s.withFrames (Stack.rebind Key.sourceVar
          (fun _ => some (.cursor rest)) s.machine.frames)) body (some element) Key.iterateNext
          with ⟨hk, hcall⟩ | ⟨hk, hl⟩
        · rw [Site.withFrames_table] at hk
          rw [hcall, hk]
          exact ⟨_, .kept touched, .stays⟩
        · rw [Site.withFrames_table] at hk
          rw [if_pos hk]
          exact ⟨_, .opened touched, hl⟩

end Builtin

/-- What a state that a stack machine brings along does. -/
def Behaviour.builtin? : Behaviour ρ → Option (Site ρ → Site.Result ρ Unit)
  | .pop => some Builtin.pop
  | .iterate => some Builtin.iterate
  | .iterateNext => some Builtin.iterateNext
  | .constant _ => none
  | .routine .. => none

namespace Execution

/-- The state whose activation begins at this moment, by what it does. -/
def activated? (e : Execution ρ) : Option (Behaviour ρ) :=
  match e.focus, e.site.machine.demand with
  | .step _, .ok true => some e.site.currentBehaviour
  | _, _ => none

/-- What comes to the stack or goes from it at this moment: a call whose key is registered pushes a
frame, and an activation of `POP` removes one. -/
def stackEvent (e : Execution ρ) : Option StackEvent :=
  match e.focus with
  | .perform op _ => e.site.stackEvent op
  | .step _ => e.activated?.bind (Builtin.stackEvent e.site)
  | _ => none

/-- What a moment can do to the site. -/
inductive Deed (e : Execution ρ) : Site ρ → Prop where
  | idle : e.stackEvent = none → Deed e e.site
  | performed {op : Op} {go : op.Answer → Program ρ} {s' : Site ρ} : e.focus = .perform op go →
      e.site.Did op s' → Deed e s'
  | wrapped {key : Key} {body : Program ρ} {go : Handle → Program ρ} :
      e.focus = .wrap key body go →
      Deed e { e.site with
        store := (e.site.store.alloc { owner := none, behaviour := .routine key body }).2 }
  /-- An activation begins; the built-in states change the stack and may make a transit at once. -/
  | activated {b : Behaviour ρ} {frames : Stack} {s' : Site ρ} : e.activated? = some b →
      Stack.Change (Builtin.stackEvent e.site b) e.site.machine.frames frames →
      (e.site.begun.withFrames frames).Leads s' → Deed e s'

theorem activated?_eq_some_iff {e : Execution ρ} {b : Behaviour ρ} :
    e.activated? = some b ↔ (∃ go, e.focus = .step go) ∧ e.site.machine.demand = .ok true ∧
      e.site.currentBehaviour = b := by
  unfold activated?
  split
  · rename_i go hf hd
    simp [hf, hd]
  · rename_i hno
    constructor
    · intro h
      cases h
    · rintro ⟨⟨go, hf⟩, hd, -⟩
      exact absurd hd (hno go hf)

theorem next_of_activated {e : Execution ρ} {go : Except MachineError Bool → Program ρ}
    {b : Behaviour ρ} (hf : e.focus = .step go) (ha : e.activated? = some b) :
    e.next = .inl (invoke e.site.begun b
      { machine := e.site.machine.name, state := e.site.machine.current.key, resume := go }
      e.waiting) := by
  obtain ⟨-, hd, rfl⟩ := activated?_eq_some_iff.mp ha
  simp only [next, hf, enterStep, hd]
  rfl

theorem next_of_builtin {e : Execution ρ} {go : Except MachineError Bool → Program ρ}
    {b : Behaviour ρ} {act : Site ρ → Site.Result ρ Unit} (hf : e.focus = .step go)
    (ha : e.activated? = some b) (hb : b.builtin? = some act) :
    e.next = .inl (settle
      { machine := e.site.machine.name, state := e.site.machine.current.key, resume := go }
      e.waiting (act e.site.begun)) := by
  rw [next_of_activated hf ha]
  cases b with
  | constant | routine => cases hb
  | pop | iterate | iterateNext =>
    cases hb
    rfl

/-- An execution ends with nothing waiting, unless by a panic. -/
theorem ended_cases {e : Execution ρ} {outcome : Outcome ρ} (h : e.next = .inr outcome) :
    (∃ r, outcome = .finished r ∧ e.focus = .done r ∧ e.waiting = []) ∨
      (∃ error, outcome = .failed error ∧ e.focus = .fail error ∧ e.waiting = []) ∨
        ∃ message, outcome = .panicked message ∧ e.focus = .panic message := by
  cases hf : e.focus with
  | done r =>
    simp only [next, hf] at h
    split at h
    · rename_i hw
      cases h
      exact .inl ⟨r, rfl, rfl, hw⟩
    · cases h
  | fail error =>
    simp only [next, hf] at h
    split at h
    · rename_i hw
      cases h
      exact .inr (.inl ⟨error, rfl, rfl, hw⟩)
    · cases h
  | panic message =>
    simp only [next, hf] at h
    cases h
    exact .inr (.inr ⟨message, rfl, rfl⟩)
  | perform | wrap | step | go | finish => simp [next, hf] at h

theorem invoke_deed {e : Execution ρ} {b : Behaviour ρ} (ha : e.activated? = some b)
    (a : Activation ρ) (waiting : List (Activation ρ)) :
    e.Deed (invoke e.site.begun b a waiting).site := by
  cases b with
  | constant key | routine key body => exact .activated ha (.refl _) .stays
  | pop =>
    obtain ⟨frames, hc, hl⟩ := Builtin.pop_change e.site.begun
    exact .activated ha hc hl
  | iterate =>
    obtain ⟨frames, hc, hl⟩ := Builtin.iterate_change e.site.begun
    exact .activated ha hc hl
  | iterateNext =>
    obtain ⟨frames, hc, hl⟩ := Builtin.iterateNext_change e.site.begun
    exact .activated ha hc hl

/-- Every moment does something on the list. -/
theorem next_deed {e e' : Execution ρ} (h : e.next = .inl e') : e.Deed e'.site := by
  cases hf : e.focus with
  | done r | fail error =>
    have hq : e.stackEvent = none := by rw [stackEvent, hf]
    simp only [next, hf] at h
    split at h
    · cases h
    · cases h
      exact .idle hq
  | panic message => simp [next, hf] at h
  | perform op go =>
    simp only [next, hf] at h
    cases h
    exact .performed hf (e.site.answer_did op)
  | wrap key body go =>
    simp only [next, hf] at h
    cases h
    exact .wrapped hf
  | go go | finish go =>
    have hq : e.stackEvent = none := by rw [stackEvent, hf]
    simp only [next, hf] at h
    cases h
    exact .idle hq
  | step go =>
    cases ha : e.activated? with
    | some b =>
      rw [next_of_activated hf ha] at h
      cases h
      exact invoke_deed ha _ _
    | none =>
      have hq : e.stackEvent = none := by rw [stackEvent, hf, ha]; rfl
      simp only [activated?, hf] at ha
      simp only [next, hf, enterStep] at h
      cases hd : e.site.machine.demand with
      | error error =>
        rw [hd] at h
        cases h
        exact .idle hq
      | ok due =>
        cases due with
        | false =>
          rw [hd] at h
          cases h
          exact .idle hq
        | true => simp [hd] at ha

/-- A moment that makes no transition leaves the current state alone, and the mark of the last
transition unless an activation begins. -/
theorem Deed.progressed_or {e : Execution ρ} {s' : Site ρ} (h : e.Deed s') :
    s'.machine.progressed = true ∨
      (s'.machine.current = e.site.machine.current ∧ e.site.store.Grows s'.store ∧
        (e.activated? = none → s'.machine.progressed = e.site.machine.progressed)) := by
  cases h with
  | idle => exact .inr ⟨rfl, .refl _, fun _ => rfl⟩
  | wrapped => exact .inr ⟨rfl, Store.grows_alloc _ _, fun _ => rfl⟩
  | performed _ hd =>
    have hgrows := hd.grows
    cases hd with
    | nothing | noted | edited | attached => exact .inr ⟨rfl, hgrows, fun _ => rfl⟩
    | moved => exact .inl rfl
    | stacked _ hl =>
      cases hl with
      | stays => exact .inr ⟨rfl, hgrows, fun _ => rfl⟩
      | enters => exact .inl rfl
  | activated ha _ hl =>
    cases hl with
    | stays => exact .inr ⟨rfl, .refl _, fun hn => by rw [ha] at hn; cases hn⟩
    | enters => exact .inl rfl

theorem Deed.grows {e : Execution ρ} {s' : Site ρ} (h : e.Deed s') :
    e.site.store.Grows s'.store := by
  cases h with
  | idle => exact .refl _
  | performed _ hd => exact hd.grows
  | wrapped => exact Store.grows_alloc _ _
  | activated _ _ hl => exact hl.store_eq ▸ .refl _

theorem Deed.all {e : Execution ρ} {s' : Site ρ} {P : Behaviour ρ → Prop} (h : e.Deed s')
    (all : e.site.store.All P)
    (hwrap : ∀ key body go, e.focus = .wrap key body go → P (.routine key body)) :
    s'.store.All P := by
  cases h with
  | idle => exact all
  | performed _ hd => exact hd.all all
  | wrapped hf => exact all.alloc (hwrap _ _ _ hf)
  | activated _ _ hl => exact hl.store_eq ▸ all

theorem Deed.change {e : Execution ρ} {s' : Site ρ} (h : e.Deed s') :
    Stack.Change e.stackEvent e.site.machine.frames s'.machine.frames := by
  cases h with
  | idle hq => exact hq ▸ .refl _
  | performed hf hd =>
    simp only [stackEvent, hf]
    exact hd.change
  | wrapped hf =>
    simp only [stackEvent, hf]
    exact .refl _
  | activated ha hc hl =>
    obtain ⟨⟨go, hf⟩, -⟩ := activated?_eq_some_iff.mp ha
    simp only [stackEvent, hf, ha, Option.bind_some]
    exact hl.frames_eq ▸ hc

end Execution

end StateEngine
