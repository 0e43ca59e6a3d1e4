import StateEngine.Proofs.Building
import StateEngine.Proofs.Scopes

/-!
# The latest result

A return writes the result of the frame that it removes into the frame that is then innermost, where
the search begins, and a new frame binds nothing. So while programs keep off the name of the result,
what the search finds under it is what the latest return has delivered, whichever frame is current;
an earlier result further out never shows.
-/

namespace StateEngine

variable {ρ : Type}

/-- The variable that a request binds, overwrites or removes. -/
def Op.assigns? : Op → Option String
  | .bindVar name _ => some name
  | .copyVar _ _ target => some target
  | .bindVarAt _ name _ => some name
  | .unbindVarAt _ name => some name
  | .updateVar _ name _ => some name
  | .rebindVar name _ => some name
  | _ => none

namespace Frame

variable {name other : String}

theorem binding?_unbind_of_ne (h : name ≠ other) (frame : Frame) :
    (frame.unbind other).binding? name = frame.binding? name := by
  rw [binding?, unbind, Table.get?_erase, if_neg h, binding?]

theorem binding?_writeResult {frame after : Frame} {value : Value}
    (h : Site.writeResult value frame = .ok after) (name : String) :
    after.binding? name = frame.binding? name := by
  unfold Site.writeResult putResult? at h
  cases hr : frame.result with
  | some v => simp [hr] at h
  | none =>
    simp only [hr, Option.isSome_none, Bool.false_eq_true, if_false, Except.ok.injEq] at h
    subst h
    rfl

end Frame

namespace Stack

theorem search_set {stack : Stack} {depth : Nat} {frame after : Frame} {name : String}
    (hd : stack[depth]? = some frame) (h : after.binding? name = frame.binding? name) :
    search (stack.set depth after) name = search stack name := by
  induction stack generalizing depth with
  | nil => simp at hd
  | cons top rest ih =>
    cases depth with
    | zero =>
      obtain rfl : top = frame := by simpa using hd
      exact search_top h rest
    | succ depth =>
      rw [List.set_cons_succ, search_cons, search_cons, ih (by simpa using hd)]

end Stack

namespace Site

variable {name : String} {s : Site ρ}

theorem search_settle {r : Except MachineError (Site ρ)}
    (h : ∀ s', r = .ok s' →
      Stack.search s'.machine.frames name = Stack.search s.machine.frames name) :
    Stack.search (s.settle r).2.machine.frames name = Stack.search s.machine.frames name := by
  cases r with
  | error e => rfl
  | ok s' => exact h s' rfl

theorem search_onTop {s' : Site ρ} {f : Frame → Except MachineError Frame}
    (hf : ∀ a b, f a = .ok b → b.binding? name = a.binding? name) (h : s.onTop f = .ok s') :
    Stack.search s'.machine.frames name = Stack.search s.machine.frames name := by
  unfold onTop at h
  split at h
  · cases h
  · rename_i top rest hframes
    split at h
    · rename_i after hafter
      cases h
      rw [withFrames_frames, hframes]
      exact Stack.search_top (hf top after hafter) rest
    · cases h

theorem search_onFrame {s' : Site ρ} {depth : Nat} {f : Frame → Except MachineError Frame}
    (hf : ∀ a b, f a = .ok b → b.binding? name = a.binding? name) (h : s.onFrame depth f = .ok s') :
    Stack.search s'.machine.frames name = Stack.search s.machine.frames name := by
  unfold onFrame Machine.frameAt at h
  cases hd : s.machine.frames[depth]? with
  | none => simp [hd] at h
  | some frame =>
    simp only [hd] at h
    split at h
    · rename_i after hafter
      cases h
      exact Stack.search_set hd (hf frame after hafter)
    · cases h

theorem search_call (s : Site ρ) (callee : Key) (argument : Option Value) (returnKey : Key)
    (name : String) : Stack.search (s.call callee argument returnKey).2.machine.frames name =
      Stack.search s.machine.frames name := by
  rcases s.call_leads callee argument returnKey with ⟨-, hs⟩ | ⟨-, hl⟩
  · rw [hs]
  · rw [hl.frames_eq]
    exact Stack.search_opened returnKey argument s.machine.frames name

/-- A request changes what the search finds under the name that it assigns, and under no other. -/
theorem search_answer (s : Site ρ) {op : Op} (hassigns : op.assigns? ≠ some name)
    (hrenews : op ≠ .resetStack) :
    Stack.search (s.answer op).2.machine.frames name = Stack.search s.machine.frames name := by
  have hbind : ∀ {other : String} (value : Option Value), some other ≠ some name →
      ∀ a b : Frame, (.ok (a.bind other value) : Except MachineError Frame) = .ok b →
        b.binding? name = a.binding? name := by
    rintro other value hne a b ⟨⟩
    exact Frame.binding?_bind_of_ne (fun heq => hne (congrArg some heq.symm)) a value
  cases op with
  | inspect | fetch | observe | write | keep | clearHistory | limitHistory | recordDirectly => rfl
  | resetStack => exact absurd rfl hrenews
  | move how target =>
    refine search_settle fun s' hm => ?_
    obtain ⟨g, -, -, rfl⟩ := move_eq_ok_iff.mp hm
    rfl
  | attach h =>
    simp only [answer]
    cases ha : s.attach h with
    | error e => rfl
    | ok r =>
      obtain ⟨-, -, rfl⟩ := attach_eq_ok_iff.mp ha
      rfl
  | call callee argument returnKey => exact s.search_call callee argument returnKey name
  | giveBack value =>
    simp only [answer, giveBack]
    cases ho : s.onTop (writeResult value) with
    | error e => rfl
    | ok s' =>
      simp only
      rw [(leads_settle fun _ => leads_transitTo).frames_eq]
      exact search_onTop (fun _ _ h => Frame.binding?_writeResult h name) ho
  | putResult value =>
    exact search_settle fun _ => search_onTop fun _ _ h => Frame.binding?_writeResult h name
  | putResultAt depth value =>
    exact search_settle fun _ => search_onFrame fun _ _ h => Frame.binding?_writeResult h name
  | bindVar other value => exact search_settle fun _ => search_onTop (hbind value hassigns)
  | bindVarAt depth other value =>
    exact search_settle fun _ => search_onFrame (hbind value hassigns)
  | copyVar t source target =>
    refine search_settle fun s' h => ?_
    unfold copyVar at h
    split at h
    · cases h
    · exact search_onTop (hbind _ hassigns) h
  | unbindVarAt depth other =>
    simp only [answer, unbindVarAt, Machine.frameAt]
    cases hd : s.machine.frames[depth]? with
    | none => rfl
    | some frame =>
      refine Stack.search_set hd (Frame.binding?_unbind_of_ne (fun heq => hassigns ?_) frame)
      exact congrArg some heq.symm
  | updateVar t other f =>
    simp only [answer, updateVar]
    split
    · exact Stack.search_rebind_of_ne (fun heq => hassigns (congrArg some heq.symm)) _ _
    · rfl
  | rebindVar other value =>
    simp only [answer, rebindVar]
    split
    · exact Stack.search_rebind_of_ne (fun heq => hassigns (congrArg some heq.symm)) _ _
    · rfl

end Site

namespace Builtin

/-- The opening of an iteration binds its own two variables only. -/
theorem search_iterate (s : Site ρ) {name : String} (hsource : name ≠ Key.sourceVar)
    (hbody : name ≠ Key.bodyVar) :
    Stack.search (iterate s).2.machine.frames name = Stack.search s.machine.frames name := by
  unfold iterate
  split
  · rfl
  · rename_i top rest hframes
    simp only
    split
    · rw [(Site.leads_settle fun _ => Site.leads_transitTo).frames_eq, Site.withFrames_frames,
        hframes]
      refine Stack.search_top ?_ rest
      rw [Frame.binding?_bind_of_ne hbody, Frame.binding?_bind_of_ne hsource]
      rfl
    · rw [Site.withFrames_frames, hframes]
      exact Stack.search_top rfl rest

/-- Another round of an iteration moves its cursor only. -/
theorem search_iterateNext (s : Site ρ) {name : String} (hsource : name ≠ Key.sourceVar) :
    Stack.search (iterateNext s).2.machine.frames name = Stack.search s.machine.frames name := by
  unfold iterateNext
  split
  · rfl
  · split
    · rw [(Site.leads_settle fun _ => Site.leads_transitTo).frames_eq]
    · simp only
      split
      · exact Stack.search_rebind_of_ne hsource _ _
      · rw [Site.search_call]
        exact Stack.search_rebind_of_ne hsource _ _

end Builtin

namespace Execution

/-- The variable that a program binds, overwrites or removes at this moment. -/
def assigned? (e : Execution ρ) : Option String :=
  match e.focus with
  | .perform op _ => op.assigns?
  | _ => none

/-- Whether a program is about to reset the stack. -/
def renews (e : Execution ρ) : Bool :=
  match e.focus with
  | .perform .resetStack _ => true
  | _ => false

theorem renews_of_renewsStack {e : Execution ρ} (h : e.RenewsStack) : e.renews = true := by
  obtain ⟨go, hf⟩ := h
  simp only [renews, hf]

/-- The frame that a return removes at this moment. -/
def removed? (e : Execution ρ) : Option Frame :=
  match e.activated? with
  | some .pop => e.site.machine.frames.head?
  | _ => none

theorem removed?_eq_some_iff {e : Execution ρ} {top : Frame} :
    e.removed? = some top ↔ ∃ rest, e.Pops top rest := by
  unfold removed? Pops
  constructor
  · intro h
    split at h
    · rename_i ha
      obtain ⟨rest, hframes⟩ := List.head?_eq_some_iff.mp h
      exact ⟨rest, ha, hframes⟩
    · cases h
  · rintro ⟨rest, ha, hframes⟩
    simp only [ha, hframes, List.head?_cons]

theorem removed?_of_ended {e : Execution ρ} {outcome : Outcome ρ} (h : e.next = .inr outcome) :
    e.removed? = none := by
  refine Option.eq_none_iff_forall_ne_some.mpr fun top hr => ?_
  obtain ⟨rest, hpops⟩ := removed?_eq_some_iff.mp hr
  have hevent := stackEvent_of_ended h
  rw [hpops.stackEvent_eq] at hevent
  cases hevent

/-- A moment that spares the name of the result changes what the search finds there by a return
only. -/
theorem search_result_next {e e' : Execution ρ} (spares : e.assigned? ≠ some Key.resultVar)
    (whole : ¬ e.RenewsStack) (kept : ∀ top, ¬ e.Pops top []) (next : e.next = .inl e') :
    Stack.search e'.site.machine.frames Key.resultVar =
      match e.removed? with
      | some top => some top.result
      | none => Stack.search e.site.machine.frames Key.resultVar := by
  cases hr : e.removed? with
  | some top =>
    obtain ⟨rest, hpops⟩ := removed?_eq_some_iff.mp hr
    obtain ⟨⟨go, hf⟩, -⟩ := activated?_eq_some_iff.mp hpops.1
    have hne : rest ≠ [] := by
      rintro rfl
      exact kept top hpops
    rw [next_of_builtin hf hpops.1 rfl] at next
    cases next
    simp only [settle]
    rw [(Builtin.pop_leads (s := e.site.begun) hpops.2).frames_eq, Site.withFrames_frames,
      Builtin.search_delivered hne]
  | none =>
    simp only
    cases hf : e.focus with
    | panic message => simp [Execution.next, hf] at next
    | done | fail =>
      simp only [Execution.next, hf] at next
      split at next
      · cases next
      · cases next
        rfl
    | wrap | go | finish =>
      simp only [Execution.next, hf] at next
      cases next
      rfl
    | perform op go =>
      simp only [assigned?, hf] at spares
      simp only [Execution.next, hf] at next
      cases next
      refine e.site.search_answer spares ?_
      rintro rfl
      exact whole ⟨go, hf⟩
    | step go =>
      cases ha : e.activated? with
      | none => rw [site_of_not_activated hf ha next]
      | some b =>
        rw [next_of_activated hf ha] at next
        cases next
        cases b with
        | constant | routine => rfl
        | iterate => exact Builtin.search_iterate e.site.begun (by decide) (by decide)
        | iterateNext => exact Builtin.search_iterateNext e.site.begun (by decide)
        | pop =>
          -- No frame was there to be removed.
          simp only [removed?, ha, List.head?_eq_none_iff] at hr
          have hempty : Builtin.pop e.site.begun = (.error .emptyStack, e.site.begun) := by
            unfold Builtin.pop
            rw [show e.site.begun.machine.frames = [] from hr]
          simp only [invoke, settle, hempty]
          rfl

/-- Along a run the search finds what the latest return has delivered. -/
theorem Run.search_result {first e : Execution ρ} {past : List (Execution ρ)} (run : Run first past e)
    (hfirst : Stack.search first.site.machine.frames Key.resultVar = none)
    (spares : ∀ x ∈ past, x.assigned? ≠ some Key.resultVar) (whole : ∀ x ∈ past, ¬ x.RenewsStack)
    (kept : ∀ x ∈ past, ∀ top, ¬ x.Pops top []) :
    Stack.search e.site.machine.frames Key.resultVar =
      (past.findSome? removed?).map Frame.result := by
  induction run with
  | start => exact hfirst
  | @step past x e' _ _ next ih =>
    obtain ⟨hspares, spares⟩ := List.forall_mem_cons.mp spares
    obtain ⟨hwhole, whole⟩ := List.forall_mem_cons.mp whole
    obtain ⟨hkept, kept⟩ := List.forall_mem_cons.mp kept
    rw [search_result_next hspares hwhole hkept next, List.findSome?_cons]
    cases x.removed? with
    | some top => rfl
    | none => exact ih spares whole kept
  | again _ _ next ih =>
    rw [List.findSome?_cons, removed?_of_ended next]
    exact ih (List.forall_mem_cons.mp spares).2 (List.forall_mem_cons.mp whole).2
      (List.forall_mem_cons.mp kept).2
  | meanwhile _ _ _ _ ih => exact ih spares whole kept

/-- While nobody writes under the name of the result and the sentinel stays, no return has been made
or the result is that of the latest one. It is read at its own type and at no other, and a return
that brought nothing hides every result before it. -/
theorem Run.result_is_latest_return {s : Site ρ} {p : Program ρ} {past : List (Execution ρ)}
    {e : Execution ρ} (born : s.Born) (hkind : s.machine.kind = .stack)
    (run : Run (.start s p) past e) (spares : ∀ x ∈ past, x.assigned? ≠ some Key.resultVar)
    (whole : ∀ x ∈ past, ¬ x.RenewsStack) (kept : ∀ x ∈ past, ∀ top, ¬ x.Pops top []) :
    (past.findSome? removed? = none → ∀ t, e.site.machine.result? t = none) ∧
      ∀ top, past.findSome? removed? = some top →
        (top.result = none → ∀ t, e.site.machine.result? t = none) ∧
          ∀ v, top.result = some v →
            ∀ t, e.site.machine.result? t = if v.type = t then some v else none := by
  have hfirst : Stack.search s.machine.frames Key.resultVar = none := by
    rw [born.frames_eq hkind]
    rfl
  have hsearch := run.search_result hfirst spares whole kept
  have hresult : ∀ t, e.site.machine.result? t =
      ((past.findSome? removed?).bind Frame.result).bind (·.as? t) := by
    intro t
    rw [Machine.result?, Machine.var?, Stack.var?, hsearch, Option.map_eq_bind]
    cases past.findSome? removed? <;> rfl
  refine ⟨fun hnone t => ?_, fun top htop => ⟨fun hr t => ?_, fun v hr t => ?_⟩⟩
  · rw [hresult, hnone]
    rfl
  · rw [hresult, htop, Option.bind_some, hr]
    rfl
  · rw [hresult, htop, Option.bind_some, hr]
    rfl

/-- One call returns a number to the sentinel, and the call after it returns nothing. The number is
the result until then, and not after. -/
theorem result_is_latest_return_of_nothing :
    ∃ (p : Program Unit) (before past : List (Execution Unit)) (between e : Execution Unit),
      Run (.start (.fresh .stack) p) before between ∧
        between.site.machine.result? .int = some (.int 7) ∧
        Run (.start (.fresh .stack) p) past e ∧ past.length = before.length + 2 ∧
        ∀ t, e.site.machine.result? t = none := by
  let p : Program Unit := .perform (.call Key.pop none Key.pop) fun _ =>
    .perform (.putResult (.int 7)) fun _ => .step fun _ =>
      .perform (.call Key.pop none Key.done) fun _ => .step fun _ => .done ()
  let first : Execution Unit := .start (.fresh .stack) p
  let obeys (x : Execution Unit) : Bool := x.assigned? != some Key.resultVar && !x.renews &&
    (x.removed?.isNone || x.site.machine.frames.length != 1)
  have lawful : ∀ {past : List (Execution Unit)}, past.all obeys = true →
      (∀ x ∈ past, x.assigned? ≠ some Key.resultVar) ∧ (∀ x ∈ past, ¬ x.RenewsStack) ∧
        ∀ x ∈ past, ∀ top, ¬ x.Pops top [] := by
    intro past hall
    simp only [obeys, List.all_eq_true, Bool.and_eq_true, bne_iff_ne] at hall
    refine ⟨fun x hx => (hall x hx).1.1, ?_, ?_⟩
    · intro x hx hrenews
      have := (hall x hx).1.2
      rw [renews_of_renewsStack hrenews] at this
      cases this
    · intro x hx top hpops
      have := (hall x hx).2
      rw [removed?_eq_some_iff.mpr ⟨_, hpops⟩, hpops.2] at this
      cases this
  have hbetween : ((forward 3 first).map fun r => r.1.all obeys && r.1.length == 3 &&
      (r.1.findSome? removed?).any fun top => top.result.any (·.same (.int 7))) =
        some true := by
    decide +kernel
  have hafter : ((forward 5 first).map fun r => r.1.all obeys && r.1.length == 5 &&
      (r.1.findSome? removed?).any fun top => top.result.isNone) = some true := by
    decide +kernel
  obtain ⟨⟨before, between⟩, hbefore, hbetween⟩ := Option.map_eq_some_iff.mp hbetween
  obtain ⟨⟨past, e⟩, hpast, hafter⟩ := Option.map_eq_some_iff.mp hafter
  simp only [Bool.and_eq_true, beq_iff_eq, Option.any_eq_true] at hbetween hafter
  obtain ⟨⟨hall, hlength⟩, top, hremoved, seven, hseven, hsame⟩ := hbetween
  obtain rfl := (Value.same_iff seven _).mp hsame
  obtain ⟨⟨hall', hlength'⟩, top', hremoved', hnothing⟩ := hafter
  obtain ⟨spares, whole, kept⟩ := lawful hall
  obtain ⟨spares', whole', kept'⟩ := lawful hall'
  have hresult := ((run_forward hbefore).result_is_latest_return (Site.fresh_born .stack) rfl spares
    whole kept).2 top hremoved
  have hresult' := ((run_forward hpast).result_is_latest_return (Site.fresh_born .stack) rfl
    spares' whole' kept').2 top' hremoved'
  refine ⟨p, before, past, between, e, run_forward hbefore, ?_, run_forward hpast, ?_, ?_⟩
  · exact hresult.2 (.int 7) hseven .int
  · rw [hlength, hlength']
  · exact hresult'.1 (Option.isNone_iff_eq_none.mp hnothing)

end Execution

end StateEngine
