import StateEngine.Proofs.Commitment
import StateEngine.Proofs.Ledger

/-!
# The scopes of calls

While a call is under way, the frames from its own upwards are its extent. Programs that write to the
innermost frame only, and leave the head of loops to iterations, never reach below the extent: what
`ITERATE1` moves is the cursor of a loop that was opened there. So when the frame of the call goes,
the caller finds its frames as they were, but for the result.
-/

namespace StateEngine

variable {ρ : Type}

theorem Frame.isBound_bind (frame : Frame) (name other : String) (value : Option Value) :
    (frame.bind name value).isBound other = (decide (other = name) || frame.isBound other) := by
  simp only [isBound, bind, Table.contains, Table.get?_insert]
  by_cases h : other = name <;> simp [h]

/-- A frame that is written to, but goes on binding what it binds. -/
structure Frame.Keeps (before after : Frame) : Prop where
  returnKey : after.returnKey = before.returnKey
  bound : ∀ name, before.isBound name = true → after.isBound name = true

theorem Frame.Keeps.bind (frame : Frame) (name : String) (value : Option Value) :
    frame.Keeps (frame.bind name value) :=
  ⟨rfl, fun other h => by rw [isBound_bind, h, Bool.or_true]⟩

theorem Frame.Keeps.writeResult {before after : Frame} {value : Value}
    (h : Site.writeResult value before = .ok after) : before.Keeps after := by
  unfold Site.writeResult putResult? at h
  cases hr : before.result with
  | some v => simp [hr] at h
  | none =>
    simp only [hr, Option.isSome_none, Bool.false_eq_true, if_false, Except.ok.injEq] at h
    subst h
    exact ⟨rfl, fun _ hb => hb⟩

namespace Stack

/-- A name that some frame of the stack binds. -/
def Binds (stack : Stack) (name : String) : Prop := (search stack name).isSome = true

theorem binds_cons {top : Frame} {rest : Stack} {name : String} :
    Binds (top :: rest) name ↔ top.isBound name = true ∨ Binds rest name := by
  rw [Binds, search_cons, Option.isSome_or, Bool.or_eq_true]
  rfl

theorem binds_rebind {stack : Stack} {name other : String} {f : Option Value → Option Value} :
    Binds (rebind name f stack) other ↔ Binds stack other := by
  unfold Binds
  by_cases h : other = name
  · rw [h, search_rebind, Option.isSome_map]
  · rw [search_rebind_of_ne h]

/-- A change through the search stops at the first frame that binds the name. -/
theorem rebind_append {stack : Stack} {name : String} (h : stack.Binds name) (below : Stack)
    (f : Option Value → Option Value) : rebind name f (stack ++ below) = rebind name f stack ++ below := by
  induction stack with
  | nil => cases h
  | cons top rest ih =>
    rw [List.cons_append, rebind, rebind]
    split
    · rfl
    · rename_i hnot
      rw [ih ((binds_cons.mp h).resolve_left hnot), List.cons_append]

/-- Every frame that returns to the head of a loop, but the outermost, has a loop further out. -/
def Nested : Stack → Prop
  | [] => True
  | top :: rest =>
    (rest ≠ [] → top.returnKey = Key.iterateNext → Binds rest Key.sourceVar) ∧ Nested rest

theorem Nested.rebind {stack : Stack} (h : stack.Nested) (name : String)
    (f : Option Value → Option Value) : (rebind name f stack).Nested := by
  induction stack with
  | nil => trivial
  | cons top rest ih =>
    rw [Stack.rebind]
    split
    · exact h
    · refine ⟨fun hne hk => binds_rebind.mpr (h.1 (fun hnil => hne ?_) hk), ih h.2⟩
      rw [hnil]
      rfl

/-- The frames of a call that is under way, its own frame outermost, while the machine stands in
`current`. A machine that stands at the head of a loop has that loop within the call. -/
structure Extent (returnKey current : Key) (stack : Stack) : Prop where
  outermost : stack.getLast?.map Frame.returnKey = some returnKey
  nested : stack.Nested
  looping : current = Key.iterateNext → stack.Binds Key.sourceVar

namespace Extent

variable {returnKey current : Key} {top : Frame} {stack rest : Stack}

theorem opened (argument : Option Value) (hne : current ≠ Key.iterateNext) :
    Extent returnKey current [Frame.opened returnKey argument] where
  outermost := rfl
  nested := ⟨fun hne => absurd rfl hne, trivial⟩
  looping h := absurd h hne

theorem ne_nil (h : stack.Extent returnKey current) : stack ≠ [] := by
  rintro rfl
  cases h.outermost

theorem enters (h : stack.Extent returnKey current) {key : Key}
    (hkey : key = Key.iterateNext → stack.Binds Key.sourceVar) : stack.Extent returnKey key :=
  { h with looping := hkey }

theorem write (h : Extent returnKey current (top :: rest)) {after : Frame}
    (keeps : top.Keeps after) : Extent returnKey current (after :: rest) where
  outermost := by
    have hout := h.outermost
    cases rest with
    | nil => exact (congrArg some keeps.returnKey).trans hout
    | cons => exact hout
  nested := ⟨keeps.returnKey ▸ h.nested.1, h.nested.2⟩
  looping hc := binds_cons.mpr ((binds_cons.mp (h.looping hc)).imp_left (keeps.bound _))

theorem push (h : stack.Extent returnKey current)
    (hkey : top.returnKey = Key.iterateNext → stack.Binds Key.sourceVar) :
    Extent returnKey current (top :: stack) where
  outermost := by
    obtain ⟨next, rest, rfl⟩ := List.exists_cons_of_ne_nil h.ne_nil
    exact h.outermost
  nested := ⟨fun _ => hkey, h.nested⟩
  looping hc := binds_cons.mpr (.inr (h.looping hc))

/-- A return leads to a head of a loop only if the loop is still there. -/
theorem pop (h : Extent returnKey current (top :: rest)) (hne : rest ≠ []) :
    Extent returnKey top.returnKey rest where
  outermost := by
    obtain ⟨next, below, rfl⟩ := List.exists_cons_of_ne_nil hne
    exact h.outermost
  nested := h.nested.2
  looping := h.nested.1 hne

theorem rebind (h : stack.Extent returnKey current) (name : String)
    (f : Option Value → Option Value) : Extent returnKey current (Stack.rebind name f stack) where
  outermost := by
    have hkeys := (touched_rebind stack name f).map_returnKey
    rw [← List.getLast?_map, hkeys, List.getLast?_map]
    exact h.outermost
  nested := h.nested.rebind name f
  looping hc := binds_rebind.mpr (h.looping hc)

end Extent

end Stack

/-- A request that writes to no frame but the innermost, and does not name the head of loops. -/
def Op.KeepsScope : Op → Prop
  | .move _ (.key key) => key ≠ Key.iterateNext
  | .move _ (.handle h) => h.key ≠ Key.iterateNext
  | .call callee _ returnKey => callee ≠ Key.iterateNext ∧ returnKey ≠ Key.iterateNext
  | .putResultAt .. | .bindVarAt .. | .unbindVarAt .. | .updateVar .. | .rebindVar .. => False
  | .resetStack => False
  | _ => True

namespace Site

/-- A call to `returnKey` is under way over the frames `below`. -/
def Within (below : Stack) (returnKey : Key) (s : Site ρ) : Prop :=
  ∃ own : Stack, s.machine.frames = own ++ below ∧ own.Extent returnKey s.machine.current.key

variable {below own : Stack} {returnKey : Key} {s : Site ρ}

/-- An attempt at a transit leaves the frames alone and the machine where it was, if not where it was
to go. -/
theorem within_settle_transit (hf : s.machine.frames = own ++ below)
    (h : own.Extent returnKey s.machine.current.key) {g : Handle}
    (hg : own.Extent returnKey g.key) : (s.settle (s.transit g)).2.Within below returnKey := by
  cases ht : s.transit g with
  | error e => exact ⟨own, hf, h⟩
  | ok s' =>
    obtain ⟨-, rfl⟩ := transit_eq_ok_iff.mp ht
    exact ⟨own, hf, hg⟩

theorem within_settle_transitTo (sound : s.Sound) (hf : s.machine.frames = own ++ below)
    (h : own.Extent returnKey s.machine.current.key) {key : Key}
    (hkey : own.Extent returnKey key) :
    (s.settle (s.transitTo key)).2.Within below returnKey := by
  cases ht : s.transitTo key with
  | error e => exact ⟨own, hf, h⟩
  | ok s' =>
    obtain ⟨g, hr, -, rfl⟩ := move_eq_ok_iff.mp ht
    obtain ⟨rfl, -, -⟩ := sound.lists _ _ (Machine.decode_eq_ok_iff.mp hr)
    exact ⟨own, hf, hkey⟩

/-- A call within a call opens its frame above the others. -/
theorem within_call (sound : s.Sound) (hf : s.machine.frames = own ++ below)
    (h : own.Extent returnKey s.machine.current.key) {callee next : Key}
    (argument : Option Value) (hnext : next = Key.iterateNext → own.Binds Key.sourceVar)
    (hcallee : callee = Key.iterateNext → own.Binds Key.sourceVar) :
    (s.call callee argument next).2.Within below returnKey := by
  unfold call
  cases hd : s.machine.decode callee with
  | error e => exact ⟨own, hf, h⟩
  | ok g =>
    obtain ⟨rfl, -, -⟩ := sound.lists _ _ (Machine.decode_eq_ok_iff.mp hd)
    have hpush : Stack.Extent returnKey s.machine.current.key (.opened next argument :: own) :=
      h.push hnext
    have hopened : (s.withFrames (.opened next argument :: s.machine.frames)).machine.frames =
        (.opened next argument :: own) ++ below := congrArg (Frame.opened next argument :: ·) hf
    refine within_settle_transit hopened hpush ?_
    exact hpush.enters fun hk => Stack.binds_cons.mpr (.inr (hcallee hk))

namespace Within

theorem of_eq {s' : Site ρ} (h : s.Within below returnKey)
    (hframes : s'.machine.frames = s.machine.frames)
    (hcurrent : s'.machine.current = s.machine.current) : s'.Within below returnKey := by
  obtain ⟨own, hf, hextent⟩ := h
  exact ⟨own, hframes.trans hf, hcurrent ▸ hextent⟩

theorem onTop {s' : Site ρ} (h : s.Within below returnKey) {f : Frame → Except MachineError Frame}
    (hf : ∀ a b, f a = .ok b → a.Keeps b) (ho : s.onTop f = .ok s') :
    s'.Within below returnKey := by
  obtain ⟨own, hframes, hextent⟩ := h
  obtain ⟨top, rest, rfl⟩ := List.exists_cons_of_ne_nil hextent.ne_nil
  simp only [Site.onTop, hframes, List.cons_append] at ho
  cases hft : f top with
  | error e => simp [hft] at ho
  | ok after =>
    simp only [hft, Except.ok.injEq] at ho
    subst ho
    exact ⟨after :: rest, rfl, hextent.write (hf _ _ hft)⟩

theorem settle_onTop (h : s.Within below returnKey) {f : Frame → Except MachineError Frame}
    (hf : ∀ a b, f a = .ok b → a.Keeps b) : (s.settle (s.onTop f)).2.Within below returnKey := by
  cases ho : s.onTop f with
  | error e => exact h
  | ok s' => exact h.onTop hf ho

theorem bind (h : s.Within below returnKey) (name : String) (value : Option Value) :
    (s.settle (s.onTop fun frame => .ok (frame.bind name value))).2.Within below returnKey := by
  refine h.settle_onTop ?_
  rintro a b ⟨⟩
  exact .bind a name value

end Within

/-- A request that keeps to the innermost frame stays within the call that is under way. -/
theorem Within.answer (h : s.Within below returnKey) (sound : s.Sound) {op : Op}
    (hop : op.KeepsScope) : (s.answer op).2.Within below returnKey := by
  cases op with
  | inspect | fetch | observe | write | keep => exact h.of_eq rfl rfl
  | clearHistory | limitHistory | recordDirectly => exact h.of_eq rfl rfl
  | putResultAt | bindVarAt | unbindVarAt | updateVar | rebindVar | resetStack => exact hop.elim
  | move how target =>
    simp only [Site.answer]
    cases hm : s.move how target with
    | error e => exact h
    | ok s' =>
      obtain ⟨g, hr, -, rfl⟩ := move_eq_ok_iff.mp hm
      obtain ⟨own, hf, hextent⟩ := h
      have hne : g.key ≠ Key.iterateNext := by
        cases target with
        | key key =>
          obtain ⟨rfl, -, -⟩ := sound.lists _ _ (Machine.decode_eq_ok_iff.mp hr)
          exact hop
        | handle g' =>
          obtain rfl : g' = g := by simpa [resolve] using hr
          exact hop
      exact ⟨own, hf, hextent.enters fun hk => absurd hk hne⟩
  | attach g =>
    simp only [Site.answer]
    cases ha : s.attach g with
    | error e => exact h
    | ok r =>
      obtain ⟨-, -, rfl⟩ := attach_eq_ok_iff.mp ha
      exact h.of_eq rfl rfl
  | call callee argument next =>
    obtain ⟨own, hf, hextent⟩ := h
    exact within_call sound hf hextent argument (fun hk => absurd hk hop.2)
      fun hk => absurd hk hop.1
  | putResult value =>
    exact h.settle_onTop fun _ _ => Frame.Keeps.writeResult
  | giveBack value =>
    simp only [Site.answer, giveBack]
    cases ho : s.onTop (writeResult value) with
    | error e => exact h
    | ok s' =>
      obtain ⟨own, hf, hextent⟩ := h.onTop (fun _ _ => Frame.Keeps.writeResult) ho
      obtain ⟨frames, -, rfl⟩ := onTop_touches (fun _ _ => Frame.Persists.writeResult) ho
      exact within_settle_transitTo (sound.withFrames frames) hf hextent
        (hextent.enters fun hk => absurd hk (by decide))
  | bindVar name value => exact h.bind name value
  | copyVar t source target =>
    simp only [Site.answer, copyVar]
    cases s.machine.var? t source with
    | none => exact h
    | some value => exact h.bind target (some value)

end Site

namespace Builtin

variable {below own : Stack} {returnKey : Key} {s : Site ρ}

/-- A return within a call leaves the frame of the call in place. -/
theorem within_pop (sound : s.Sound) {top : Frame} (hf : s.machine.frames = top :: own ++ below)
    (h : Stack.Extent returnKey Key.pop (top :: own)) (hcurrent : s.machine.current.key = Key.pop)
    (hne : own ≠ []) : (pop s).2.Within below returnKey := by
  obtain ⟨caller, rest, rfl⟩ := List.exists_cons_of_ne_nil hne
  have hwritten : ∀ {key : Key}, Stack.Extent returnKey key (caller :: rest) →
      Stack.Extent returnKey key (caller.bind Key.resultVar top.result :: rest) :=
    fun h => h.write (.bind caller Key.resultVar top.result)
  have hreturn := h.pop hne
  have hstay : Stack.Extent returnKey s.machine.current.key (caller :: rest) :=
    hcurrent ▸ hreturn.enters fun hk => absurd hk (by decide)
  simp only [pop, hf, List.cons_append]
  exact Site.within_settle_transitTo (sound.withFrames _) rfl (hwritten hstay) (hwritten hreturn)

theorem within_iterate (sound : s.Sound) (h : s.Within below returnKey) :
    (iterate s).2.Within below returnKey := by
  obtain ⟨own, hf, hextent⟩ := h
  obtain ⟨top, rest, rfl⟩ := List.exists_cons_of_ne_nil hextent.ne_nil
  have hemptied : Stack.Extent returnKey s.machine.current.key
      ({ top with argument := none } :: rest) := hextent.write ⟨rfl, fun _ hb => hb⟩
  simp only [iterate, hf, List.cons_append]
  split
  · rename_i source body _
    have hsource := hemptied.write (.bind _ Key.sourceVar (some (.cursor source)))
    have hloop := hsource.write (.bind _ Key.bodyVar (some (.text body)))
    refine Site.within_settle_transitTo (sound.withFrames _) rfl hloop
      (hloop.enters fun _ => Stack.binds_cons.mpr (.inl ?_))
    rw [Frame.isBound_bind, Frame.isBound_bind]
    rfl
  · exact ⟨{ top with argument := none } :: rest, rfl, hemptied⟩

/-- An iteration moves the cursor of a loop within the call, and calls from there. -/
theorem within_iterateNext (sound : s.Sound) (h : s.Within below returnKey)
    (hcurrent : s.machine.current.key = Key.iterateNext) :
    (iterateNext s).2.Within below returnKey := by
  obtain ⟨own, hf, hextent⟩ := h
  have hloop := hextent.looping hcurrent
  unfold iterateNext
  split
  · exact ⟨own, hf, hextent⟩
  · split
    · exact Site.within_settle_transitTo sound hf hextent
        (hextent.enters fun hk => absurd hk (by decide))
    · rename_i element rest _
      have hmoved := hextent.rebind Key.sourceVar fun _ => some (.cursor rest)
      have hframes : (s.withFrames (Stack.rebind Key.sourceVar (fun _ => some (.cursor rest))
          s.machine.frames)).machine.frames =
          Stack.rebind Key.sourceVar (fun _ => some (.cursor rest)) own ++ below := by
        rw [Site.withFrames_frames, hf, Stack.rebind_append hloop]
      have hbinds := hmoved.looping hcurrent
      simp only
      split
      · exact ⟨_, hframes, hmoved⟩
      · exact Site.within_call (sound.withFrames _) hframes hmoved (some element)
          (fun _ => hbinds) fun _ => hbinds

theorem search_delivered_of_ne {name : String} (h : name ≠ Key.resultVar) (result : Option Value)
    (rest : Stack) : Stack.search (delivered result rest) name = Stack.search rest name := by
  cases rest with
  | nil => rfl
  | cons caller below =>
    exact Stack.search_top (Frame.binding?_bind_of_ne h caller result) below

theorem search_delivered {rest : Stack} (h : rest ≠ []) (result : Option Value) :
    Stack.search (delivered result rest) Key.resultVar = some result := by
  obtain ⟨caller, below, rfl⟩ := List.exists_cons_of_ne_nil h
  rw [delivered, Stack.search_cons, Frame.binding?, Frame.bind, Table.get?_insert, if_pos rfl]
  rfl

/-- The frames once the innermost iteration has taken its next element. -/
def advanced (frames : Stack) : Stack :=
  match (source? frames).bind Cursor.next? with
  | some (_, rest) => Stack.rebind Key.sourceVar (fun _ => some (.cursor rest)) frames
  | none => frames

theorem iterateNext_of_nextCall {element : Value} {body : Key}
    (h : nextCall? s.machine.frames = some (element, body)) :
    iterateNext s =
      (s.withFrames (advanced s.machine.frames)).call body (some element) Key.iterateNext := by
  unfold nextCall? at h
  split at h
  · rename_i source callee hs hb
    obtain ⟨⟨v, rest⟩, hn, heq⟩ := Option.map_eq_some_iff.mp h
    obtain ⟨rfl, rfl⟩ := Prod.mk.inj heq
    rw [iterateNext_of_next hs hn hb, advanced, hs, Option.bind_some, hn]
  · cases h

end Builtin

namespace Execution

variable {below : Stack} {returnKey : Key} {e e' : Execution ρ}

/-- A moment at which no frame is written to but the innermost, and the head of loops is not named by
any program. -/
def KeepsScope (e : Execution ρ) : Prop :=
  match e.focus with
  | .perform op _ => op.KeepsScope
  | _ => True

/-- Whether a program has a request for its machine. -/
def asks (e : Execution ρ) : Bool :=
  match e.focus with
  | .perform .. => true
  | _ => false

theorem keepsScope_of_asks_eq_false {e : Execution ρ} (h : e.asks = false) : e.KeepsScope := by
  unfold asks at h
  unfold KeepsScope
  cases hf : e.focus with
  | perform => rw [hf] at h; cases h
  | _ => trivial

/-- Whether a return runs. -/
def returns (e : Execution ρ) : Bool :=
  match e.activated? with
  | some .pop => true
  | _ => false

theorem returns_eq_true_iff {e : Execution ρ} : e.returns = true ↔ e.activated? = some .pop := by
  unfold returns
  cases e.activated? with
  | none => simp
  | some b => cases b <;> simp

/-- A moment stays within the call that is under way, unless it removes the frame of that call. -/
theorem within_next (h : e.site.Within below returnKey) (sound : e.site.Sound)
    (scope : e.KeepsScope) (inner : ∀ top rest, e.Pops top rest → rest.length ≠ below.length)
    (next : e.next = .inl e') : e'.site.Within below returnKey := by
  cases hf : e.focus with
  | panic message => simp [Execution.next, hf] at next
  | done | fail =>
    simp only [Execution.next, hf] at next
    split at next
    · cases next
    · cases next
      exact h
  | wrap | go | finish =>
    simp only [Execution.next, hf] at next
    cases next
    exact h.of_eq rfl rfl
  | perform op go =>
    simp only [KeepsScope, hf] at scope
    simp only [Execution.next, hf] at next
    cases next
    exact h.answer sound scope
  | step go =>
    cases ha : e.activated? with
    | none => exact site_of_not_activated hf ha next ▸ h
    | some b =>
      have hbegun : e.site.begun.Within below returnKey := h.of_eq rfl rfl
      have hkey : b.key = e.site.machine.current.key := by
        obtain ⟨-, -, rfl⟩ := activated?_eq_some_iff.mp ha
        exact sound.key_currentBehaviour
      rw [next_of_activated hf ha] at next
      cases next
      cases b with
      | constant | routine => exact hbegun
      | iterate => exact Builtin.within_iterate sound.begun hbegun
      | iterateNext => exact Builtin.within_iterateNext sound.begun hbegun hkey.symm
      | pop =>
        obtain ⟨own, hframes, hextent⟩ := hbegun
        obtain ⟨top, rest, rfl⟩ := List.exists_cons_of_ne_nil hextent.ne_nil
        have hne : rest ≠ [] := by
          rintro rfl
          exact inner top below ⟨ha, hframes⟩ rfl
        have hpop : e.site.begun.machine.current.key = Key.pop := hkey.symm
        exact Builtin.within_pop sound.begun hframes (hpop ▸ hextent) hpop hne

/-- A run stays within a call for as long as the frame of the call is not removed. -/
theorem Run.within {first : Execution ρ} {past : List (Execution ρ)} (run : Run first past e)
    (sound : first.site.Sound) (h : first.site.Within below returnKey)
    (scope : ∀ x ∈ past, x.KeepsScope)
    (inner : ∀ x ∈ past, ∀ top rest, x.Pops top rest → rest.length ≠ below.length) :
    e.site.Within below returnKey := by
  induction run with
  | start => exact h
  | @step past x e' run _ next ih =>
    obtain ⟨hscope, hpast⟩ := List.forall_mem_cons.mp scope
    obtain ⟨hinner, hpast'⟩ := List.forall_mem_cons.mp inner
    exact within_next (ih hpast hpast') (run.sound sound) hscope hinner next
  | again _ _ _ ih =>
    exact ih (List.forall_mem_cons.mp scope).2 (List.forall_mem_cons.mp inner).2
  | meanwhile _ _ _ _ ih => exact (ih scope inner).of_eq rfl rfl

/-- The frames of those who wait for a call that is made. An iteration moves its cursor there before
it calls. -/
def callers (e : Execution ρ) : Stack :=
  match e.activated? with
  | some .iterateNext => Builtin.advanced e.site.machine.frames
  | _ => e.site.machine.frames

theorem Calls.honest {callee : Key} {argument : Option Value} (h : e.Calls callee argument returnKey) :
    e.Honest := by
  obtain ⟨-, ⟨go, hf⟩ | ⟨ha, -⟩⟩ := h
  · simp only [Honest, hf, Op.Honest]
  · obtain ⟨⟨go, hf⟩, -⟩ := activated?_eq_some_iff.mp ha
    simp only [Honest, hf]

/-- A call that goes through opens a frame over those of the callers and enters the callee. -/
theorem Calls.opens {callee : Key} {argument : Option Value} (h : e.Calls callee argument returnKey)
    (sound : e.site.Sound) (entered : e.committed? ≠ none) (next : e.next = .inl e') :
    e'.site.machine.frames = .opened returnKey argument :: e.callers ∧
      e'.site.machine.current.key = callee := by
  have hopens : ∀ {s : Site ρ} {r : Site.Result ρ Unit}, s.Sound →
      s.call callee argument returnKey = r → Site.transited? r ≠ none →
        r.2.machine.frames = .opened returnKey argument :: s.machine.frames ∧
          r.2.machine.current.key = callee := by
    intro s r hs hr hentered
    obtain ⟨r, s'⟩ := r
    cases r with
    | error error => exact absurd rfl hentered
    | ok =>
      obtain ⟨g, hg, rfl⟩ := Site.entered_of_call hr
      exact ⟨rfl, (hs.lists _ _ hg).1⟩
  obtain ⟨-, ⟨go, hf⟩ | ⟨ha, rfl, element, rfl, hn⟩⟩ := h
  · have ha : e.activated? = none := by simp only [activated?, hf]
    simp only [committed?, hf] at entered
    simp only [Execution.next, hf] at next
    cases next
    simp only [callers, ha]
    exact hopens sound rfl entered
  · obtain ⟨⟨go, hf⟩, -⟩ := activated?_eq_some_iff.mp ha
    simp only [committed?, hf, ha, Behaviour.builtin?, Option.bind_some] at entered
    rw [next_of_builtin hf ha rfl] at next
    cases next
    have hcall := Builtin.iterateNext_of_nextCall (s := e.site.begun) hn
    rw [hcall] at entered
    simp only [callers, ha, settle, hcall]
    exact hopens (sound.begun.withFrames _) rfl entered

/-- From a call to the return that removes its frame the frames of the callers stay as they are, and
they get the result alone. So what the callee and everything that it called has bound is gone, and
the search finds the same as before for every name but that of the result. -/
theorem Run.callee_leaves_no_trace {s : Site ρ} {p : Program ρ} {before past : List (Execution ρ)}
    {call first last after : Execution ρ} {callee : Key} {argument : Option Value} {top : Frame}
    {rest : Stack} (born : s.Born) (run : Run (.start s p) before call)
    (calls : call.Calls callee argument returnKey) (entered : call.committed? ≠ none)
    (hcallee : callee ≠ Key.iterateNext) (hfirst : call.next = .inl first)
    (segment : Run first past last) (scope : ∀ x ∈ past, x.KeepsScope)
    (inner : ∀ x ∈ past, ∀ top rest, x.Pops top rest → rest.length ≠ call.callers.length)
    (pops : last.Pops top rest) (hback : rest.length = call.callers.length)
    (hafter : last.next = .inl after) :
    rest = call.callers ∧ top.returnKey = returnKey ∧
      after.site.machine.frames = Builtin.delivered top.result call.callers ∧
      (∀ name, name ≠ Key.resultVar →
        Stack.search after.site.machine.frames name = Stack.search call.callers name) ∧
      (call.callers ≠ [] →
        Stack.search after.site.machine.frames Key.resultVar = some top.result) := by
  have sound := run.sound born.sound
  obtain ⟨hframes, hkey⟩ := calls.opens sound entered hfirst
  have hsound : first.site.Sound := sound.deed calls.honest (next_deed hfirst)
  have hstart : first.site.Within call.callers returnKey :=
    ⟨[.opened returnKey argument], hframes, .opened argument (hkey ▸ hcallee)⟩
  obtain ⟨own, hlast, hextent⟩ := segment.within hsound hstart scope inner
  rw [pops.2] at hlast
  -- Nothing is left above the frame of the call, since the return goes down to the callers.
  obtain ⟨frame, above, rfl⟩ := List.exists_cons_of_ne_nil hextent.ne_nil
  rw [List.cons_append] at hlast
  obtain ⟨rfl, hrest⟩ := List.cons.inj hlast
  obtain rfl : above = [] := by
    have hlength := congrArg List.length hrest
    rw [List.length_append] at hlength
    exact List.length_eq_zero_iff.mp (by omega)
  obtain rfl : rest = call.callers := hrest
  obtain ⟨-, -, hdelivered, -⟩ := pops.outcome (segment.sound hsound) hafter
  refine ⟨rfl, Option.some.inj hextent.outermost, hdelivered, fun name hne => ?_, fun hsome => ?_⟩
  · rw [hdelivered, Builtin.search_delivered_of_ne hne]
  · rw [hdelivered, Builtin.search_delivered hsome]

/-- A caller has a variable under the name that iterations use for their own. -/
theorem callee_leaves_no_trace_of_iteration :
    ∃ (before past : List (Execution Unit)) (call first last after : Execution Unit) (top : Frame),
      Run (.start (.fresh .stack)
        (.perform (.bindVar Key.sourceVar (some .unit)) fun _ =>
          .perform (.call Key.iterate (some (.iteration (.listed [.unit]) Key.pop)) Key.done)
            fun _ => .go fun _ => .done ())) before call ∧
        call.Calls Key.iterate (some (.iteration (.listed [.unit]) Key.pop)) Key.done ∧
        call.next = .inl first ∧ Run first past last ∧ last.Pops top call.callers ∧
        last.next = .inl after ∧ past.length = 9 ∧
        Stack.search call.callers Key.sourceVar = some (some .unit) ∧
        Stack.search after.site.machine.frames Key.sourceVar = some (some .unit) := by
  let bound : Site Unit :=
    ((Site.fresh .stack).answer (.bindVar Key.sourceVar (some .unit))).2
  let op : Op := .call Key.iterate (some (.iteration (.listed [.unit]) Key.pop)) Key.done
  let call : Execution Unit := .start bound (.perform op fun _ => .go fun _ => .done ())
  let first : Execution Unit := .start (bound.answer op).2 (.go fun _ => .done ())
  have opening : Run (.start (.fresh .stack) (.perform (.bindVar Key.sourceVar (some .unit))
      fun _ => .perform op fun _ => .go fun _ => .done ())) _ call := .step .start trivial rfl
  have hcheck : ((forward 9 first).map fun r =>
      r.1.all (fun x => !x.asks && !(x.returns && x.site.machine.frames.length == 2)) &&
        (r.2.returns && r.2.site.machine.frames.length == 2) && r.1.length == 9) =
          some true := by
    decide +kernel
  obtain ⟨⟨past, last⟩, hforward, hcheck⟩ := Option.map_eq_some_iff.mp hcheck
  simp only [Bool.and_eq_true, Bool.not_eq_true', Bool.and_eq_false_iff, List.all_eq_true,
    beq_iff_eq, beq_eq_false_iff_ne] at hcheck
  obtain ⟨⟨hpast, hreturns, hheight⟩, hlength⟩ := hcheck
  have scope : ∀ x ∈ past, x.KeepsScope := fun x hx =>
    keepsScope_of_asks_eq_false (hpast x hx).1
  have inner : ∀ x ∈ past, ∀ top rest, x.Pops top rest →
      rest.length ≠ call.callers.length := by
    rintro x hx top rest ⟨ha, hframes⟩ heq
    rcases (hpast x hx).2 with hno | hheight
    · rw [returns_eq_true_iff.mpr ha] at hno
      cases hno
    · rw [hframes, List.length_cons, heq] at hheight
      exact hheight rfl
  obtain ⟨top, rest, after, pops, hback, hafter⟩ : ∃ top rest after, last.Pops top rest ∧
      rest.length = call.callers.length ∧ last.next = .inl after := by
    have ha := returns_eq_true_iff.mp hreturns
    have hpos : 0 < last.site.machine.frames.length := by omega
    obtain ⟨top, rest, hframes⟩ := List.exists_cons_of_length_pos hpos
    obtain ⟨⟨go, hf⟩, -⟩ := activated?_eq_some_iff.mp ha
    refine ⟨top, rest, _, ⟨ha, hframes⟩, ?_, next_of_activated hf ha⟩
    rw [hframes, List.length_cons] at hheight
    exact Nat.succ.inj hheight
  have calls : call.Calls Key.iterate (some (.iteration (.listed [.unit]) Key.pop)) Key.done :=
    ⟨rfl, .inl ⟨_, rfl⟩⟩
  obtain ⟨rfl, -, -, hsearch, -⟩ := opening.callee_leaves_no_trace (Site.fresh_born .stack) calls
    nofun (by decide) rfl (run_forward hforward) scope inner pops hback hafter
  exact ⟨_, past, call, first, last, after, top, opening, calls, rfl, run_forward hforward, pops,
    hafter, hlength, rfl, hsearch _ (by decide)⟩

end Execution

end StateEngine
