import StateEngine.Proofs.Building
import StateEngine.Proofs.Tracing

/-!
# The life of a frame

From the call that opens it to the return that removes it a frame goes back to the same key. Its
argument is there until `ITERATE` takes it, its result is the first that anyone has offered, and
nothing else that happens in between can reach either. A frame is followed by the number of frames
below it, which stays the same while the frame is there.
-/

namespace StateEngine

variable {ρ : Type}

/-- A frame without its variables. -/
structure Outline where
  returnKey : Key
  argument : Option Value
  result : Option Value

namespace Outline

/-- A result is taken by the frame that has none. -/
def offered (value : Value) (o : Outline) : Outline :=
  { o with result := o.result.or (some value) }

def emptied (o : Outline) : Outline := { o with argument := none }

end Outline

def Frame.outline (frame : Frame) : Outline where
  returnKey := frame.returnKey
  argument := frame.argument
  result := frame.result

def Stack.outlines (stack : Stack) : List Outline := stack.map Frame.outline

/-- The value that a request offers to a frame as its result, and how many calls further out than the
innermost that frame is. -/
def Op.offer? : Op → Option (Nat × Value)
  | .putResult value => some (0, value)
  | .giveBack value => some (0, value)
  | .putResultAt depth value => some (depth, value)
  | _ => none

theorem Stack.outlines_set {stack : Stack} {depth : Nat} {frame after : Frame}
    (hd : stack[depth]? = some frame) (f : Outline → Outline) (h : after.outline = f frame.outline) :
    Stack.outlines (stack.set depth after) = (Stack.outlines stack).modify depth f := by
  induction stack generalizing depth with
  | nil => simp at hd
  | cons top rest ih =>
    cases depth with
    | zero =>
      obtain rfl : top = frame := by simpa using hd
      simp [Stack.outlines, h]
    | succ depth =>
      have hrest : Stack.outlines (rest.set depth after) = (Stack.outlines rest).modify depth f :=
        ih (by simpa using hd)
      exact congrArg (top.outline :: ·) hrest

theorem Stack.outlines_rebind (name : String) (f : Option Value → Option Value) (stack : Stack) :
    Stack.outlines (Stack.rebind name f stack) = Stack.outlines stack := by
  induction stack with
  | nil => rfl
  | cons top rest ih =>
    rw [Stack.rebind]
    split
    · rfl
    · exact congrArg (top.outline :: ·) ih

theorem modify_eq_self_of_fixed {α : Type} {l : List α} {i : Nat} {a : α} {f : α → α}
    (hi : l[i]? = some a) (h : f a = a) : l.modify i f = l := by
  refine List.ext_getElem? fun j => ?_
  rw [List.getElem?_modify]
  by_cases hj : i = j
  · subst hj
    simp [hi, h]
  · simp [hj]

/-- A list is counted from its end: a change at one place is seen there. -/
theorem getElem?_reverse_modify {α : Type} (l : List α) (i n : Nat) (f : α → α) :
    (l.modify i f).reverse[n]? =
      l.reverse[n]?.map fun a => if i + n + 1 = l.length then f a else a := by
  by_cases hn : n < l.length
  · rw [List.getElem?_reverse (by rwa [List.length_modify]), List.getElem?_reverse hn,
      List.length_modify, List.getElem?_modify]
    have hplace : i = l.length - 1 - n ↔ i + n + 1 = l.length := by omega
    simp only [hplace]
    rfl
  · have hnone : l.reverse[n]? = none := by simpa using hn
    rw [hnone]
    simpa using hn

theorem getElem?_reverse_cons {α : Type} {a b : α} {l : List α} {n : Nat}
    (h : (a :: l).reverse[n]? = some b) : l.reverse[n]? = some b ∨ n = l.length ∧ b = a := by
  rw [List.reverse_cons, List.getElem?_append] at h
  split at h
  · exact .inl h
  · rename_i hn
    rw [List.length_reverse] at hn h
    obtain ⟨hzero, hb⟩ := List.getElem?_eq_some_iff.mp h
    rw [List.length_singleton] at hzero
    exact .inr ⟨by omega, by simpa [eq_comm] using hb⟩

theorem getElem?_reverse_cons_of_some {α : Type} {b : α} {l : List α} {n : Nat}
    (h : l.reverse[n]? = some b) (a : α) : (a :: l).reverse[n]? = some b := by
  obtain ⟨hn, -⟩ := List.getElem?_eq_some_iff.mp h
  rw [List.reverse_cons, List.getElem?_append_left hn, h]

/-- What came to a stack or went from it, by the outlines of the frames. -/
def StackEvent.outlines (outlines : List Outline) : Option StackEvent → List Outline
  | none => outlines
  | some (.opened returnKey argument) => (Frame.opened returnKey argument).outline :: outlines
  | some .closed => outlines.tail
  | some .renewed => Stack.outlines .initial

/-- The outlines after a request has offered a result. -/
def Op.rewritten (outlines : List Outline) (op : Op) : List Outline :=
  match op.offer? with
  | some (depth, value) => outlines.modify depth (Outline.offered value)
  | none => outlines

namespace Site

theorem outline_writeResult {value : Value} {frame after : Frame}
    (h : writeResult value frame = .ok after) : after.outline = frame.outline.offered value := by
  unfold writeResult Frame.putResult? at h
  cases hr : frame.result with
  | some v => simp [hr] at h
  | none =>
    simp only [hr, Option.isSome_none, Bool.false_eq_true, if_false, Except.ok.injEq] at h
    subst h
    simp [Frame.outline, Outline.offered, hr]

theorem offered_of_refused {value : Value} {frame : Frame} {error : MachineError}
    (h : writeResult value frame = .error error) : frame.outline.offered value = frame.outline := by
  unfold writeResult Frame.putResult? at h
  cases hr : frame.result with
  | some v => simp [Frame.outline, Outline.offered, hr]
  | none => simp [hr] at h

section Frames

variable {s : Site ρ} {f : Frame → Except MachineError Frame} {g : Outline → Outline}
  (hok : ∀ a b, f a = .ok b → b.outline = g a.outline)
  (herror : ∀ a error, f a = .error error → g a.outline = a.outline)

include hok herror

/-- What is done to the outline of a frame is done at its place, and where it fails it is nothing. -/
theorem outlines_onFrame (depth : Nat) :
    Stack.outlines (s.settle (s.onFrame depth f)).2.machine.frames =
      (Stack.outlines s.machine.frames).modify depth g := by
  unfold onFrame Machine.frameAt
  cases hd : s.machine.frames[depth]? with
  | none =>
    have hlength : (Stack.outlines s.machine.frames).length ≤ depth := by
      simpa [Stack.outlines] using hd
    exact (List.modify_eq_self hlength).symm
  | some frame =>
    have hout : (Stack.outlines s.machine.frames)[depth]? = some frame.outline := by
      simp [Stack.outlines, hd]
    simp only
    cases hf : f frame with
    | error error => exact (modify_eq_self_of_fixed hout (herror frame error hf)).symm
    | ok after => exact Stack.outlines_set hd g (hok frame after hf)

theorem outlines_onTop :
    Stack.outlines (s.settle (s.onTop f)).2.machine.frames =
      (Stack.outlines s.machine.frames).modify 0 g := by
  unfold onTop
  cases hframes : s.machine.frames with
  | nil => simp [settle, hframes, Stack.outlines]
  | cons top rest =>
    simp only
    cases hf : f top with
    | error error => simp [settle, hframes, Stack.outlines, herror top error hf]
    | ok after => simp [settle, Stack.outlines, hok top after hf]

end Frames

theorem outlines_call (s : Site ρ) (callee : Key) (argument : Option Value) (returnKey : Key) :
    Stack.outlines (s.call callee argument returnKey).2.machine.frames =
      StackEvent.outlines (Stack.outlines s.machine.frames)
        (s.stackEvent (.call callee argument returnKey)) := by
  rcases s.call_leads callee argument returnKey with ⟨hk, hs⟩ | ⟨hk, hl⟩
  · rw [hs, stackEvent, hk]
    rfl
  · rw [hl.frames_eq, stackEvent, hk]
    rfl

/-- A request leaves the outlines of all frames alone but for the result that it offers, the frame
that it opens, and a reset of the whole stack. -/
theorem outlines_answer (s : Site ρ) (op : Op) :
    Stack.outlines (s.answer op).2.machine.frames =
      StackEvent.outlines (op.rewritten (Stack.outlines s.machine.frames)) (s.stackEvent op) := by
  have hbind : ∀ (name : String) (value : Option Value) (a b : Frame),
      (.ok (a.bind name value) : Except MachineError Frame) = .ok b → b.outline = id a.outline := by
    rintro name value a b ⟨⟩
    rfl
  cases op with
  | inspect | fetch | observe | write | keep | clearHistory | limitHistory | recordDirectly
  | resetStack => rfl
  | move how target =>
    simp only [answer]
    cases hm : s.move how target with
    | error error => rfl
    | ok s' =>
      obtain ⟨g, -, -, rfl⟩ := move_eq_ok_iff.mp hm
      rfl
  | attach h =>
    simp only [answer]
    cases ha : s.attach h with
    | error error => rfl
    | ok r =>
      obtain ⟨-, -, rfl⟩ := attach_eq_ok_iff.mp ha
      rfl
  | call callee argument returnKey => exact s.outlines_call callee argument returnKey
  | putResult value =>
    exact outlines_onTop (fun _ _ => outline_writeResult) (fun _ _ => offered_of_refused)
  | giveBack value =>
    have hwritten : Stack.outlines (s.settle (s.onTop (writeResult value))).2.machine.frames = _ :=
      outlines_onTop (fun _ _ => outline_writeResult) (fun _ _ => offered_of_refused)
    simp only [answer, giveBack]
    cases hw : s.onTop (writeResult value) with
    | error error =>
      rw [hw] at hwritten
      exact hwritten
    | ok s₁ =>
      rw [hw] at hwritten
      simp only
      rw [(leads_settle fun _ => leads_transitTo).frames_eq]
      exact hwritten
  | putResultAt depth value =>
    exact outlines_onFrame (fun _ _ => outline_writeResult) (fun _ _ => offered_of_refused) depth
  | bindVar name value =>
    exact (outlines_onTop (hbind name value) fun _ _ _ => rfl).trans (List.modify_id _ _)
  | bindVarAt depth name value =>
    exact (outlines_onFrame (hbind name value) (fun _ _ _ => rfl) depth).trans (List.modify_id _ _)
  | copyVar t source target =>
    simp only [answer, copyVar]
    cases s.machine.var? t source with
    | none => rfl
    | some value =>
      exact (outlines_onTop (hbind target value) fun _ _ _ => rfl).trans (List.modify_id _ _)
  | unbindVarAt depth name =>
    simp only [answer, unbindVarAt, Machine.frameAt]
    cases hd : s.machine.frames[depth]? with
    | none => rfl
    | some frame =>
      have hkept : (frame.unbind name).outline = id frame.outline := rfl
      exact (Stack.outlines_set hd id hkept).trans (List.modify_id _ _)
  | updateVar t name f =>
    simp only [answer, updateVar]
    split
    · exact Stack.outlines_rebind name _ _
    · rfl
  | rebindVar name value =>
    simp only [answer, rebindVar]
    split
    · exact Stack.outlines_rebind name _ _
    · rfl

end Site

namespace Builtin

theorem outlines_delivered (result : Option Value) (rest : Stack) :
    Stack.outlines (delivered result rest) = Stack.outlines rest := by
  cases rest <;> rfl

theorem outlines_pop (s : Site ρ) :
    Stack.outlines (pop s).2.machine.frames =
      StackEvent.outlines (Stack.outlines s.machine.frames) (stackEvent s .pop) := by
  cases hframes : s.machine.frames with
  | nil => simp [pop, stackEvent, hframes, StackEvent.outlines]
  | cons top rest =>
    rw [(pop_leads hframes).frames_eq, Site.withFrames_frames, outlines_delivered, stackEvent,
      if_neg (hframes ▸ List.cons_ne_nil top rest)]
    rfl

/-- `ITERATE` takes the argument of the innermost frame, whatever it finds there. -/
theorem outlines_iterate (s : Site ρ) :
    Stack.outlines (iterate s).2.machine.frames =
      (Stack.outlines s.machine.frames).modify 0 Outline.emptied := by
  unfold iterate
  cases hframes : s.machine.frames with
  | nil => simp [hframes, Stack.outlines]
  | cons top rest =>
    simp only
    split
    · rw [(Site.leads_settle fun _ => Site.leads_transitTo).frames_eq]
      rfl
    · rfl

theorem outlines_iterateNext (s : Site ρ) :
    Stack.outlines (iterateNext s).2.machine.frames =
      StackEvent.outlines (Stack.outlines s.machine.frames) (stackEvent s .iterateNext) := by
  cases hs : source? s.machine.frames with
  | none =>
    simp only [iterateNext, stackEvent, nextCall?, hs]
    rfl
  | some source =>
    cases hn : source.next? with
    | none =>
      rw [iterateNext_of_exhausted hs hn,
        (Site.leads_settle fun _ => Site.leads_transitTo).frames_eq]
      cases hb : body? s.machine.frames <;> simp only [stackEvent, nextCall?, hs, hb, hn] <;> rfl
    | some taken =>
      obtain ⟨element, rest⟩ := taken
      have hmoved := Stack.outlines_rebind Key.sourceVar (fun _ => some (.cursor rest)) s.machine.frames
      cases hb : body? s.machine.frames with
      | none =>
        simp only [iterateNext, stackEvent, nextCall?, hs, hn, hb, Site.withFrames_frames,
          body?_rebind_source]
        exact hmoved
      | some body =>
        rw [iterateNext_of_next hs hn hb, Site.outlines_call, Site.withFrames_frames, hmoved]
        simp only [stackEvent, nextCall?, hs, hn, hb, Option.map_some, Site.stackEvent,
          Site.withFrames_table]
        rfl

end Builtin

namespace Execution

/-- An activation of `ITERATE` begins at this moment. -/
def opensIteration (e : Execution ρ) : Bool :=
  match e.activated? with
  | some .iterate => true
  | _ => false

/-- The outlines after results were offered and arguments were taken at this moment. -/
def rewritten (e : Execution ρ) (outlines : List Outline) : List Outline :=
  match e.focus with
  | .perform op _ => op.rewritten outlines
  | _ => if e.opensIteration then outlines.modify 0 Outline.emptied else outlines

theorem rewritten_of_no_request {e : Execution ρ} (hop : e.focus.request? = none)
    (outlines : List Outline) : e.rewritten outlines =
      if e.opensIteration then outlines.modify 0 Outline.emptied else outlines := by
  unfold rewritten
  split
  · rename_i op go hf
    rw [hf] at hop
    cases hop
  · rfl

/-- The outlines of the frames change by what is offered, what `ITERATE` takes, and what comes and
goes. -/
theorem outlines_next {e e' : Execution ρ} (next : e.next = .inl e') :
    Stack.outlines e'.site.machine.frames =
      StackEvent.outlines (e.rewritten (Stack.outlines e.site.machine.frames)) e.stackEvent := by
  have hy := next_yields next
  generalize e'.site = s' at hy
  cases hy with
  | performed hf =>
    simp only [rewritten, stackEvent, hf]
    exact e.site.outlines_answer _
  | idle hop ha =>
    have hquiet : e.stackEvent = none := by
      unfold stackEvent
      split
      · rename_i op go hf
        rw [hf] at hop
        cases hop
      · rw [ha]
        rfl
      · rfl
    rw [rewritten_of_no_request hop, hquiet, opensIteration, ha]
    rfl
  | wrapped hf =>
    simp only [rewritten, opensIteration, activated?, stackEvent, hf]
    rfl
  | @invoked b ha hb =>
    obtain ⟨⟨go, hf⟩, -⟩ := activated?_eq_some_iff.mp ha
    simp only [rewritten, opensIteration, stackEvent, hf, ha, Option.bind_some]
    cases b with
    | pop | iterate | iterateNext => cases hb
    | constant | routine => rfl
  | @acted b act ha hb =>
    obtain ⟨⟨go, hf⟩, -⟩ := activated?_eq_some_iff.mp ha
    simp only [rewritten, opensIteration, stackEvent, hf, ha, Option.bind_some]
    cases b with
    | constant | routine => cases hb
    | pop =>
      cases hb
      exact Builtin.outlines_pop e.site.begun
    | iterate =>
      cases hb
      exact Builtin.outlines_iterate e.site.begun
    | iterateNext =>
      cases hb
      exact Builtin.outlines_iterateNext e.site.begun

/-- The value that is offered at this moment as the result of the frame above `n` others. -/
def offered? (n : Nat) (e : Execution ρ) : Option Value :=
  match e.focus with
  | .perform op _ => op.offer?.bind fun offer =>
      if offer.1 + n + 1 = e.site.machine.frames.length then some offer.2 else none
  | _ => none

/-- At this moment `ITERATE` takes the argument of the frame above `n` others. -/
def takesArgument (n : Nat) (e : Execution ρ) : Bool :=
  e.opensIteration && e.site.machine.frames.length == n + 1

/-- What this moment makes of the frame above `n` others. -/
def aged (e : Execution ρ) (n : Nat) (o : Outline) : Outline where
  returnKey := o.returnKey
  argument := if e.takesArgument n then none else o.argument
  result := o.result.or (e.offered? n)

theorem length_rewritten (e : Execution ρ) (outlines : List Outline) :
    (e.rewritten outlines).length = outlines.length := by
  unfold rewritten Op.rewritten
  split
  · split
    · exact List.length_modify ..
    · rfl
  · split
    · exact List.length_modify ..
    · rfl

theorem getElem?_rewritten (e : Execution ρ) {outlines : List Outline}
    (hlength : outlines.length = e.site.machine.frames.length) (n : Nat) :
    (e.rewritten outlines).reverse[n]? = outlines.reverse[n]?.map (e.aged n) := by
  cases hf : e.focus with
  | perform op go =>
    have htakes : e.takesArgument n = false := by
      rw [takesArgument, opensIteration, activated?, hf]
      rfl
    unfold aged offered? rewritten Op.rewritten
    simp only [hf, htakes]
    cases op.offer? with
    | none => simp
    | some offer =>
      obtain ⟨depth, value⟩ := offer
      simp only [Option.bind_some]
      rw [getElem?_reverse_modify, hlength]
      congr 1
      funext o
      by_cases hplace : depth + n + 1 = e.site.machine.frames.length
      · simp [hplace, Outline.offered]
      · simp [hplace]
  | _ =>
    rw [rewritten_of_no_request (by rw [hf]; rfl)]
    unfold aged offered? takesArgument
    simp only [hf]
    cases e.opensIteration with
    | false => simp
    | true =>
      rw [if_pos rfl, getElem?_reverse_modify, hlength]
      congr 1
      funext o
      by_cases hplace : e.site.machine.frames.length = n + 1
      · simp [hplace, Outline.emptied]
      · have hother : ¬ n + 1 = e.site.machine.frames.length := fun h => hplace h.symm
        simp [hplace, hother]

/-- A frame was there before and has aged, or it was opened by a call. -/
theorem frame_next {e e' : Execution ρ} (next : e.next = .inl e') (whole : ¬ e.RenewsStack) {n : Nat}
    {o : Outline} (h : (Stack.outlines e'.site.machine.frames).reverse[n]? = some o) :
    (∃ before, (Stack.outlines e.site.machine.frames).reverse[n]? = some before ∧
        o = e.aged n before) ∨
      e.site.machine.frames.length = n ∧ ∃ callee argument returnKey,
        e.Calls callee argument returnKey ∧ o = (Frame.opened returnKey argument).outline := by
  have hlength : (Stack.outlines e.site.machine.frames).length = e.site.machine.frames.length :=
    List.length_map _
  have hold : (e.rewritten (Stack.outlines e.site.machine.frames)).reverse[n]? = some o →
      ∃ before, (Stack.outlines e.site.machine.frames).reverse[n]? = some before ∧
        o = e.aged n before := by
    intro hrewritten
    rw [e.getElem?_rewritten hlength] at hrewritten
    obtain ⟨before, hbefore, hage⟩ := Option.map_eq_some_iff.mp hrewritten
    exact ⟨before, hbefore, hage.symm⟩
  rw [outlines_next next] at h
  rcases e.stackEvent_cases with hq | ⟨callee, argument, returnKey, hcall⟩ | ⟨top, rest, hpop⟩ |
    hrenew
  · rw [hq] at h
    exact .inl (hold h)
  · rw [hcall.stackEvent_eq] at h
    rcases getElem?_reverse_cons h with hrest | ⟨rfl, hopened⟩
    · exact .inl (hold hrest)
    · refine .inr ⟨?_, callee, argument, returnKey, hcall, hopened⟩
      rw [length_rewritten, hlength]
  · rw [hpop.stackEvent_eq] at h
    refine .inl (hold ?_)
    cases hl : e.rewritten (Stack.outlines e.site.machine.frames) with
    | nil =>
      rw [hl] at h
      cases h
    | cons o' outlines =>
      rw [hl] at h
      exact getElem?_reverse_cons_of_some h o'
  · exact absurd hrenew whole

/-- The moments since a frame with `n` others below it was opened. -/
def lifetime (n : Nat) (past : List (Execution ρ)) : List (Execution ρ) :=
  past.takeWhile fun x => n < x.site.machine.frames.length

/-- How a frame came to be there: it is the one below all others that a stack machine starts with, or
a call has opened it. -/
inductive Opened (n : Nat) (past : List (Execution ρ)) : Key → Option Value → Prop where
  | first : n = 0 → lifetime n past = past → Opened n past Key.error none
  | call {x : Execution ρ} {earlier : List (Execution ρ)} {callee returnKey : Key}
      {argument : Option Value} : past = lifetime n past ++ x :: earlier →
      x.site.machine.frames.length = n → x.Calls callee argument returnKey →
      Opened n past returnKey argument

/-- What is known of a frame that was opened with a return key and an argument. -/
structure Lives (n : Nat) (past : List (Execution ρ)) (returnKey : Key) (argument : Option Value)
    (o : Outline) : Prop where
  opened : Opened n past returnKey argument
  returnKey : o.returnKey = returnKey
  argument : o.argument = if (lifetime n past).any (takesArgument n) then none else argument
  result : o.result = (lifetime n past).reverse.findSome? (offered? n)

theorem lifetime_cons_of_lt {n : Nat} {x : Execution ρ} (hn : n < x.site.machine.frames.length)
    (past : List (Execution ρ)) : lifetime n (x :: past) = x :: lifetime n past :=
  List.takeWhile_cons_of_pos (by simpa using hn)

theorem Lives.aged {n : Nat} {past : List (Execution ρ)} {returnKey : Key}
    {argument : Option Value} {o : Outline} (lives : Lives n past returnKey argument o)
    {x : Execution ρ} (hn : n < x.site.machine.frames.length) :
    Lives n (x :: past) returnKey argument (x.aged n o) := by
  have hlife := lifetime_cons_of_lt hn past
  refine ⟨?_, lives.returnKey, ?_, ?_⟩
  · cases lives.opened with
    | first hzero hall => exact .first hzero (by rw [hlife, hall])
    | call hpast hlength hcall =>
      exact .call (by rw [hlife, List.cons_append, ← hpast]) hlength hcall
  · rw [hlife, List.any_cons, Execution.aged, lives.argument]
    cases x.takesArgument n <;> simp
  · rw [hlife, List.reverse_cons, List.findSome?_append, Execution.aged, lives.result]
    simp

theorem aged_of_ended {e : Execution ρ} {outcome : Outcome ρ} (h : e.next = .inr outcome) (n : Nat)
    (o : Outline) : e.aged n o = o := by
  rcases ended_cases h with ⟨_, -, hf, -⟩ | ⟨_, -, hf, -⟩ | ⟨_, -, hf⟩ <;>
    simp [aged, offered?, takesArgument, opensIteration, activated?, hf]

theorem Run.lives {s : Site ρ} {p : Program ρ} {past : List (Execution ρ)} {e : Execution ρ}
    (born : s.Born) (hkind : s.machine.kind = .stack) (run : Run (.start s p) past e)
    (whole : ∀ x ∈ past, ¬ x.RenewsStack) {n : Nat} {o : Outline}
    (h : (Stack.outlines e.site.machine.frames).reverse[n]? = some o) :
    ∃ returnKey argument, Lives n past returnKey argument o := by
  have hlt : ∀ {x : Execution ρ} {o : Outline},
      (Stack.outlines x.site.machine.frames).reverse[n]? = some o →
        n < x.site.machine.frames.length := by
    intro x o hx
    obtain ⟨hn, -⟩ := List.getElem?_eq_some_iff.mp hx
    simpa [Stack.outlines] using hn
  induction run generalizing o with
  | start =>
    have hframes : (Execution.start s p).site.machine.frames = Stack.initial := born.frames_eq hkind
    have hn := hlt h
    rw [hframes] at h hn
    obtain rfl : n = 0 := Nat.lt_one_iff.mp hn
    cases h
    exact ⟨_, _, .first rfl rfl, rfl, rfl, rfl⟩
  | @step past x e' run honest next ih =>
    obtain ⟨hwhole, whole⟩ := List.forall_mem_cons.mp whole
    rcases frame_next next hwhole h with ⟨before, hbefore, rfl⟩ |
      ⟨hlength, callee, argument, returnKey, hcall, rfl⟩
    · obtain ⟨returnKey, argument, lives⟩ := ih whole hbefore
      exact ⟨returnKey, argument, lives.aged (hlt hbefore)⟩
    · have hlife : lifetime n (x :: past) = [] :=
        List.takeWhile_cons_of_neg (by simp [hlength])
      exact ⟨returnKey, argument, .call (by rw [hlife]; rfl) hlength hcall, rfl, by rw [hlife]; rfl,
        by rw [hlife]; rfl⟩
  | @again past x outcome p run next ih =>
    obtain ⟨-, whole⟩ := List.forall_mem_cons.mp whole
    obtain ⟨returnKey, argument, lives⟩ := ih whole h
    exact ⟨returnKey, argument, aged_of_ended next n o ▸ lives.aged (hlt h)⟩
  | meanwhile shelf clock run grows ih => exact ih whole h

/-- A request of this moment that writes a result, and how the program goes on with its answer. -/
inductive Offers (e : Execution ρ) (value : Value) : (Except MachineError Unit → Program ρ) → Prop where
  | putResult {go : Except MachineError Unit → Program ρ} :
      e.focus = .perform (.putResult value) go → Offers e value go
  | giveBack {go : Except MachineError Unit → Program ρ} :
      e.focus = .perform (.giveBack value) go → Offers e value go
  | putResultAt {depth : Nat} {go : Except MachineError Unit → Program ρ} :
      e.focus = .perform (.putResultAt depth value) go → Offers e value go

end Execution

end StateEngine
