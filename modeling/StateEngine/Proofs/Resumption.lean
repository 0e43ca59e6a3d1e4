import StateEngine.Proofs.Answering
import StateEngine.Proofs.Iteration
import StateEngine.Proofs.Refusal

/-!
# Failed iterations

`ITERATE` takes its argument, and `ITERATE1` takes an element, before either knows whether it can go
on, and a failure gives nothing back. What is lost is the argument that asked for no iteration, or
the one element. The elements after it stay with the cursor: when the loop can go on again and
`ITERATE1` is entered anew, each of them is handed out in turn.
-/

namespace StateEngine

variable {ρ : Type}

/-- The first `n` values that a cursor hands out, fewer if it is exhausted before. -/
def Cursor.take : Nat → Cursor → List Value
  | 0, _ => []
  | n + 1, cursor =>
    match cursor.next? with
    | none => []
    | some (v, after) => v :: after.take n

namespace Builtin

/-- A loop finds its variables past a frame that binds neither. -/
theorem source?_opened (returnKey : Key) (argument : Option Value) (rest : Stack) :
    source? (.opened returnKey argument :: rest) = source? rest := by
  rw [source?, Stack.search_opened, source?]

theorem source?_bind_result (caller : Frame) (result : Option Value) (rest : Stack) :
    source? (caller.bind Key.resultVar result :: rest) = source? (caller :: rest) := by
  rw [source?, Stack.search_top (Frame.binding?_bind_of_ne (by decide) caller result), source?]

theorem body?_bind_result (caller : Frame) (result : Option Value) (rest : Stack) :
    body? (caller.bind Key.resultVar result :: rest) = body? (caller :: rest) := by
  rw [body?, Stack.search_top (Frame.binding?_bind_of_ne (by decide) caller result), body?]

/-- The cursor that is put in place of the one that was found is the one that is found then. -/
theorem source?_rebind {frames : Stack} {cursor : Cursor} (hs : source? frames = some cursor)
    (after : Cursor) :
    source? (Stack.rebind Key.sourceVar (fun _ => some (.cursor after)) frames) = some after := by
  unfold source? at hs ⊢
  rw [Stack.search_rebind]
  cases hbound : Stack.search frames Key.sourceVar with
  | none =>
    rw [hbound] at hs
    cases hs
  | some binding => rfl

theorem iterate_of_mismatch {s : Site ρ} {top : Frame} {rest : Stack}
    (hf : s.machine.frames = top :: rest)
    (ha : ∀ source body, top.argument ≠ some (.iteration source body)) :
    iterate s = (.error (.argumentType Key.iterate "IterateArgs"),
      s.withFrames ({ top with argument := none } :: rest)) := by
  cases harg : top.argument with
  | none => simp only [iterate, hf, harg]
  | some value =>
    cases value with
    | iteration source body => exact absurd harg (ha source body)
    | _ => simp only [iterate, hf, harg]

theorem iterateNext_of_no_body {s : Site ρ} {cursor after : Cursor} {v : Value}
    (hs : source? s.machine.frames = some cursor) (hc : cursor.next? = some (v, after))
    (hb : body? s.machine.frames = none) :
    iterateNext s = (.error (.unboundVar Key.bodyVar),
      s.withFrames (Stack.rebind Key.sourceVar (fun _ => some (.cursor after))
        s.machine.frames)) := by
  simp only [iterateNext, hs, hc, Site.withFrames_frames, body?_rebind_source, hb]

end Builtin

namespace Site

/-- The site once the invoked `ITERATE1` has taken an element of the cursor. -/
def advanced (s : Site ρ) (after : Cursor) : Site ρ :=
  s.begun.withFrames
    (Stack.rebind Key.sourceVar (fun _ => some (.cursor after)) s.machine.frames)

/-- The ways in which an activation of `ITERATE` fails, and the site that each of them leaves. -/
inductive IterateFails (s : Site ρ) : MachineError → Site ρ → Prop where
  | empty : s.machine.frames = [] → IterateFails s .emptyStack s.begun
  | mismatch {top : Frame} {rest : Stack} : s.machine.frames = top :: rest →
      (∀ source body, top.argument ≠ some (.iteration source body)) →
      IterateFails s (.argumentType Key.iterate "IterateArgs")
        (s.begun.withFrames ({ top with argument := none } :: rest))

/-- The ways in which an activation of `ITERATE1` fails, and the site that each of them leaves. -/
inductive IterateNextFails (s : Site ρ) : MachineError → Site ρ → Prop where
  | noSource : Builtin.source? s.machine.frames = none →
      IterateNextFails s (.unboundVar Key.sourceVar) s.begun
  | noBody {cursor after : Cursor} {v : Value} : Builtin.source? s.machine.frames = some cursor →
      cursor.next? = some (v, after) → Builtin.body? s.machine.frames = none →
      IterateNextFails s (.unboundVar Key.bodyVar) (s.advanced after)
  | unknown {cursor after : Cursor} {v : Value} {body : Key} :
      Builtin.source? s.machine.frames = some cursor → cursor.next? = some (v, after) →
      Builtin.body? s.machine.frames = some body → s.machine.table.get? body = none →
      IterateNextFails s (.unknownKey body s.machine.name) (s.advanced after)
  | fault {cursor after : Cursor} {v : Value} : Builtin.source? s.machine.frames = some cursor →
      cursor.next? = some (v, after) → Builtin.body? s.machine.frames = some Key.error →
      IterateNextFails s (.enterError s.machine.current.key) ((s.advanced after).withFrames
        (.opened Key.iterateNext (some v) :: (s.advanced after).machine.frames))

section Failures

variable {s s' : Site ρ} {e : MachineError}

theorem Sound.iterate_eq_error_iff (sound : s.Sound)
    (hnext : s.machine.table.contains Key.iterateNext = true) :
    Builtin.iterate s.begun = (.error e, s') ↔ s.IterateFails e s' := by
  refine eq_error_iff_of_total (fun e s' h => ?_) ?_
  · cases h with
    | empty hf =>
      have hbegun : s.begun.machine.frames = [] := hf
      simp only [Builtin.iterate, hbegun]
    | mismatch hf ha => exact Builtin.iterate_of_mismatch (s := s.begun) hf ha
  · cases hf : s.machine.frames with
    | nil => exact .inr ⟨_, _, .empty hf⟩
    | cons top rest =>
      by_cases ha : ∃ source body, top.argument = some (.iteration source body)
      · obtain ⟨source, body, ha⟩ := ha
        obtain ⟨g, hg⟩ := Option.isSome_iff_exists.mp hnext
        rw [Builtin.iterate_of_iteration (s := s.begun) hf ha,
          (sound.begun.withFrames _).settle_transitTo rfl hg (by decide)]
        exact .inl ⟨_, rfl⟩
      · exact .inr ⟨_, _, .mismatch hf fun source body h => ha ⟨source, body, h⟩⟩

theorem IterateNextFails.eq (sound : s.Sound) (h : s.IterateNextFails e s') :
    Builtin.iterateNext s.begun = (.error e, s') := by
  cases h with
  | noSource hs =>
    have hbegun : Builtin.source? s.begun.machine.frames = none := hs
    simp only [Builtin.iterateNext, hbegun]
  | noBody hs hc hb => exact Builtin.iterateNext_of_no_body (s := s.begun) hs hc hb
  | unknown hs hc hb hk =>
    rw [Builtin.iterateNext_of_next (s := s.begun) hs hc hb]
    exact ((sound.begun.withFrames _).call_eq_error_iff).mpr (.unknown hk)
  | fault hs hc hb =>
    rw [Builtin.iterateNext_of_next (s := s.begun) hs hc hb]
    exact ((sound.begun.withFrames _).call_eq_error_iff).mpr (.fault rfl rfl)

theorem Sound.iterateNext_ok_or_fails (sound : s.Sound)
    (hpop : s.machine.table.contains Key.pop = true) :
    (∃ s', Builtin.iterateNext s.begun = (.ok (), s')) ∨ ∃ e s', s.IterateNextFails e s' := by
  cases hs : Builtin.source? s.machine.frames with
  | none => exact .inr ⟨_, _, .noSource hs⟩
  | some cursor =>
    cases hc : cursor.next? with
    | none =>
      obtain ⟨g, hg⟩ := Option.isSome_iff_exists.mp hpop
      rw [Builtin.iterateNext_of_exhausted (s := s.begun) hs hc,
        sound.begun.settle_transitTo rfl hg (by decide)]
      exact .inl ⟨_, rfl⟩
    | some taken =>
      obtain ⟨v, after⟩ := taken
      cases hb : Builtin.body? s.machine.frames with
      | none => exact .inr ⟨_, _, .noBody hs hc hb⟩
      | some body =>
        cases hk : s.machine.table.get? body with
        | none => exact .inr ⟨_, _, .unknown hs hc hb hk⟩
        | some g =>
          by_cases he : body = Key.error
          · exact .inr ⟨_, _, .fault hs hc (he ▸ hb)⟩
          · exact .inl ⟨_, Builtin.iterateNext_of_listed (s := s.begun) sound.begun rfl hs hc hb
              hk he⟩

/-- The frames that were there go on, with their arguments. -/
theorem IterateNextFails.frames (h : s.IterateNextFails e s') : ∃ kept,
    Stack.Touched s.machine.frames kept ∧ (s'.machine.frames = kept ∨
      ∃ v, s'.machine.frames = .opened Key.iterateNext (some v) :: kept) := by
  have hrebound := Stack.touched_rebind s.machine.frames Key.sourceVar
  cases h with
  | noSource => exact ⟨_, .refl _, .inl rfl⟩
  | noBody | unknown => exact ⟨_, hrebound _, .inl rfl⟩
  | fault => exact ⟨_, hrebound _, .inr ⟨_, rfl⟩⟩

/-- The cursor that was found has lost one element, whatever the reason of the failure. -/
theorem IterateNextFails.advances (h : s.IterateNextFails e s') {cursor : Cursor}
    (hs : Builtin.source? s.machine.frames = some cursor) : ∃ v after,
      cursor.next? = some (v, after) ∧ Builtin.source? s'.machine.frames = some after := by
  cases h with
  | noSource hnone => cases hs.symm.trans hnone
  | noBody hs' hc | unknown hs' hc =>
    cases hs.symm.trans hs'
    exact ⟨_, _, hc, Builtin.source?_rebind hs _⟩
  | fault hs' hc =>
    cases hs.symm.trans hs'
    exact ⟨_, _, hc, (Builtin.source?_opened _ _ _).trans (Builtin.source?_rebind hs _)⟩

end Failures

end Site

namespace Execution

variable [Inhabited ρ] {m : Nat → Execution ρ} {height : Nat} {body next : Key}

/-- A moment at which `ITERATE1` begins and finds its variables, in whichever frames. -/
structure AtLoop (e : Execution ρ) (height : Nat) (cursor : Cursor) (body : Key) : Prop where
  poised : e.Poised
  active : e.activated? = some .iterateNext
  height_eq : e.site.machine.frames.length = height + 1
  source : Builtin.source? e.site.machine.frames = some cursor
  callee : Builtin.body? e.site.machine.frames = some body

/-- The call of the moment `i` returns, and the loop then finds below it what it found before. -/
structure Regains (m : Nat → Execution ρ) (height i j : Nat) : Prop where
  returns : Returns m height i j
  source : Builtin.source? (m j).site.machine.frames.tail =
    Builtin.source? (m (i + 1)).site.machine.frames.tail
  callee : Builtin.body? (m j).site.machine.frames.tail =
    Builtin.body? (m (i + 1)).site.machine.frames.tail

/-- The loop goes on where its call returns. -/
theorem Regains.atLoop {i j : Nat} {cursor : Cursor} {argument : Option Value} {below : Stack}
    (back : Regains m (height + 2) i j) (supports : Supports m body next)
    (hprogressed : (m (i + 1)).site.machine.progressed = true)
    (hframes : (m (i + 1)).site.machine.frames = .opened Key.iterateNext argument :: below)
    (hlength : below.length = height + 1) (hs : Builtin.source? below = some cursor)
    (hb : Builtin.body? below = some body) :
    (m (j + 1)).activated? = none ∧ (m (j + 1)).site.machine.frames.length = height + 1 ∧
      (m (j + 2)).AtLoop height cursor body := by
  obtain ⟨top, caller, rest, hjframes, hrest, hnone, hframes₁, hpoised, hactive, hframes₂⟩ :=
    back.returns.resumes supports.drives supports.sound (supports.keeps j) hprogressed hframes
      hlength
  have hsource := back.source
  have hcallee := back.callee
  rw [hjframes, hframes, List.tail_cons, List.tail_cons] at hsource hcallee
  refine ⟨hnone, by rw [hframes₁, List.length_cons, hrest], hpoised, hactive, ?_, ?_, ?_⟩
  · rw [hframes₂, List.length_cons, hrest]
  · rw [hframes₂, Builtin.source?_bind_result, hsource, hs]
  · rw [hframes₂, Builtin.body?_bind_result, hcallee, hb]

/-- From such a moment on the loop hands out the values that are left, as many as are asked for. The
induction is on their number, one round of the loop for each. -/
theorem AtLoop.rounds (supports : Supports m body next)
    (hback : ∀ i, Visits m height body i → ∃ j, Regains m (height + 2) i j) (n : Nat)
    {cursor : Cursor} {a : Nat} (head : (m a).AtLoop height cursor body)
    (hopen : ∀ k ≤ a, height < (m k).site.machine.frames.length) :
    ∃ visits last, Delivers m height body a last visits (cursor.take n) := by
  induction n generalizing cursor a with
  | zero => exact ⟨[], a, .nil⟩
  | succ n ih =>
    rw [Cursor.take]
    cases hc : cursor.next? with
    | none => exact ⟨[], a, .nil⟩
    | some taken =>
      obtain ⟨v, after⟩ := taken
      obtain ⟨hkey, hprogressed, hframes⟩ := supports.drives.enters_body (supports.sound a)
        head.poised head.active head.source hc head.callee (supports.body_listed a) supports.body_ne
      have hlength : (Stack.rebind Key.sourceVar (fun _ => some (.cursor after))
          (m a).site.machine.frames).length = height + 1 := by
        rw [Stack.length_rebind, head.height_eq]
      have hpushed : (m (a + 1)).site.machine.frames.length = height + 2 := by
        rw [hframes, List.length_cons, hlength]
      have hvisit : Visits m height body a := ⟨hopen, head.active, head.height_eq, hpushed, hkey⟩
      have hreceives : Receives m height a v := ⟨_, _, hframes, rfl, rfl, hlength⟩
      obtain ⟨j, back⟩ := hback a hvisit
      obtain ⟨hnone, hheight, head'⟩ := back.atLoop supports hprogressed hframes hlength
        (Builtin.source?_rebind head.source after)
        ((Builtin.body?_rebind_source _ _).trans head.callee)
      obtain ⟨visits, last, more⟩ := ih head' (back.returns.unbroken hopen hheight head'.height_eq)
      exact ⟨a :: visits, last, .cons hvisit hreceives back.returns hnone more⟩

end Execution

namespace Site

open Execution

variable [Inhabited ρ]

/-- Whoever drives the machine on from here sees the body called with these values in turn, as long
as its calls return and leave the variables of the loop alone. -/
def HandsOut (s : Site ρ) (body : Key) (vs : List Value) : Prop :=
  ∀ m : Nat → Execution ρ, m 0 = start s .stepOnce → Drives m →
    (∀ i, (m i).site.KeepsBuiltins) →
    (∀ i, Visits m (s.machine.frames.length - 1) body i →
      ∃ j, Regains m (s.machine.frames.length + 1) i j) →
    ∃ visits last, Delivers m (s.machine.frames.length - 1) body 0 last visits vs

/-- A machine that was just sent into `ITERATE1` hands out what the cursor has left. -/
theorem Sound.hands_out {s : Site ρ} (sound : s.Sound) {g : Handle}
    (hg : s.machine.table.get? Key.iterateNext = some g) (hcurrent : s.machine.current = g)
    (hprogressed : s.machine.progressed = true) {cursor : Cursor} {body : Key}
    (hs : Builtin.source? s.machine.frames = some cursor)
    (hb : Builtin.body? s.machine.frames = some body)
    (hlisted : s.machine.table.contains body = true) (hne : body ≠ Key.error) (n : Nat) :
    s.HandsOut body (cursor.take n) := by
  intro m hstart drives keeps hback
  have hsite : (m 0).site = s := by rw [hstart]; rfl
  have supports : Supports m body Key.pop :=
    { drives, keeps, sound := drives.sound (hsite ▸ sound)
      body_listed := fun i => Option.isSome_iff_exists.mp (drives.contains (hsite ▸ hlisted) i)
      next_listed := fun i => (keeps i).pop.imp fun _ h => h.1
      body_ne := hne
      next_ne := by decide }
  have hlength : s.machine.frames.length = s.machine.frames.length - 1 + 1 := by
    cases hf : s.machine.frames with
    | nil =>
      rw [hf] at hs
      cases hs
    | cons top rest => rfl
  have hbehaviour : s.currentBehaviour = .iterateNext := by
    obtain ⟨g', hg', hhead⟩ := (keeps 0).iterateNext
    rw [hsite] at hg' hhead
    cases hg.symm.trans hg'
    rw [currentBehaviour, hcurrent, hhead]
    rfl
  have hpoised : (m 0).Poised := by
    rw [hstart]
    exact ⟨rfl, rfl⟩
  have head : (m 0).AtLoop (s.machine.frames.length - 1) cursor body :=
    { poised := hpoised
      active := hpoised.activates (supports.sound 0) (hsite ▸ hprogressed) (hsite ▸ hbehaviour) rfl
      height_eq := by rw [hsite]; exact hlength
      source := by rw [hsite, hs]
      callee := by rw [hsite, hb] }
  refine head.rounds supports (fun i visit => ?_) n fun k hk => ?_
  · rw [show s.machine.frames.length - 1 + 2 = s.machine.frames.length + 1 by omega]
    exact hback i visit
  · obtain rfl := Nat.le_zero.mp hk
    rw [head.height_eq]
    omega

/-- The loop can go on: it finds this cursor, and a body that can be entered. -/
structure Resumable (s : Site ρ) (cursor : Cursor) (body : Key) : Prop where
  reachable : s.Reachable
  kind : s.machine.kind = .stack
  source : Builtin.source? s.machine.frames = some cursor
  callee : Builtin.body? s.machine.frames = some body
  listed : s.machine.table.contains body = true
  not_fault : body ≠ Key.error

/-- A reset into `ITERATE1` sets the loop going again, with every value that is left. -/
theorem Resumable.hands_out {s : Site ρ} {cursor : Cursor} {body : Key}
    (resumable : s.Resumable cursor body) :
    ∃ s', s.answer (.move .reset (.key Key.iterateNext)) = (.ok (), s') ∧
      ∀ n, s'.HandsOut body (cursor.take n) := by
  have sound := resumable.reachable.sound
  have hnext := resumable.reachable.contains_builtin
    (resumable.kind ▸ by decide : Key.iterateNext ∈ s.machine.kind.builtinKeys)
  obtain ⟨g, hg⟩ := Option.isSome_iff_exists.mp hnext
  obtain ⟨hkey, howned, hknown⟩ := sound.lists Key.iterateNext g hg
  have hadmits : s.Admits .reset g := ⟨fun h => absurd rfl h, howned, hkey ▸ by decide⟩
  have hmove : s.move .reset (.key Key.iterateNext) = .ok (s.entered .reset g) :=
    move_eq_ok_iff.mpr ⟨g, Machine.decode_eq_ok_iff.mpr hg, hadmits, rfl⟩
  exact ⟨s.entered .reset g, by rw [answer, hmove]; rfl,
    (sound.entered hadmits hknown).hands_out hg rfl rfl resumable.source resumable.callee
      resumable.listed resumable.not_fault⟩

/-- An activation of `ITERATE` or `ITERATE1` fails in the listed ways and in no other, and leaves
exactly the site that goes with each. A failed `ITERATE` has lost the argument, which asked for no
iteration. A failed `ITERATE1` has lost one element at most: the frames that were there keep their
arguments, and when the loop can go on again a reset brings all that comes after the element. -/
theorem Reachable.iteration_failure_leaves {s : Site ρ} (reachable : s.Reachable)
    (hkind : s.machine.kind = .stack) :
    (s.currentBehaviour = .iterate →
        ∀ e s', s.Invokes (.error e) s' ↔ s.IterateFails e s') ∧
      (s.currentBehaviour = .iterateNext →
        ∀ e s', s.Invokes (.error e) s' ↔ s.IterateNextFails e s') ∧
      ∀ e s', s.IterateNextFails e s' →
        (∃ kept, Stack.Touched s.machine.frames kept ∧ (s'.machine.frames = kept ∨
          ∃ v, s'.machine.frames = .opened Key.iterateNext (some v) :: kept)) ∧
        ∀ cursor, Builtin.source? s.machine.frames = some cursor → ∃ v after,
          cursor.next? = some (v, after) ∧ Builtin.source? s'.machine.frames = some after ∧
            ∀ (t : Site ρ) body, t.Resumable after body →
              ∃ t', t.answer (.move .reset (.key Key.iterateNext)) = (.ok (), t') ∧
                ∀ n, t'.HandsOut body (after.take n) := by
  have sound := reachable.sound
  have hbuiltin : ∀ key ∈ MachineKind.stack.builtinKeys, s.machine.table.contains key = true :=
    fun key hkey => reachable.contains_builtin (hkind ▸ hkey)
  refine ⟨fun hb e s' => ?_, fun hb e s' => ?_, fun e s' hfails =>
    ⟨hfails.frames, fun cursor hs => ?_⟩⟩
  · exact (invokes_builtin_iff hb rfl).trans (sound.iterate_eq_error_iff (hbuiltin _ (by decide)))
  · exact (invokes_builtin_iff hb rfl).trans (eq_error_iff_of_total
      (fun _ _ h => h.eq sound) (sound.iterateNext_ok_or_fails (hbuiltin _ (by decide))))
  · obtain ⟨v, after, hc, hs'⟩ := hfails.advances hs
    exact ⟨v, after, hc, hs', fun t body resumable => resumable.hands_out⟩

/-- A fresh stack machine that was asked to iterate with this argument. -/
def asked (argument : Value) : Site Unit :=
  ((fresh .stack).answer (.call Key.iterate (some argument) Key.done)).2

/-- A machine in `ITERATE1`, before it calls a state that it does not have. -/
def stranded : Site Unit :=
  (Builtin.iterate (asked (.iteration (.listed [.int 1, .int 2]) "Gone")).begun).2

/-- The same machine after the call has failed and the state was added. -/
def mended : Site Unit :=
  (Builtin.iterateNext stranded.begun).2.equip [("Gone", .link Key.pop)]

theorem asked_reachable (argument : Value) : (asked argument).Reachable :=
  answer_equip_reachable (fresh_born .stack) [] trivial

/-- Asks for the iteration of `stranded`, and for steps. -/
def straying : Program Unit :=
  .perform (.call Key.iterate (some (.iteration (.listed [.int 1, .int 2]) "Gone")) Key.done)
    fun _ => .step fun _ => .step fun _ => .done ()

theorem stranded_reachable : stranded.Reachable := by
  obtain ⟨⟨past, e⟩, hforward, hsite⟩ : ∃ r,
      Execution.forward 2 (.start (fresh .stack) straying) = some r ∧ r.2.site = stranded :=
    ⟨_, rfl, rfl⟩
  exact ⟨_, straying, past, e, fresh_born .stack, run_forward hforward, hsite⟩

theorem mended_reachable : mended.Reachable := by
  obtain ⟨⟨past, e⟩, hforward, hended, hsite⟩ : ∃ r,
      Execution.forward 3 (.start (fresh .stack) straying) = some r ∧
        r.2.next = .inr (.finished ()) ∧ r.2.site = (Builtin.iterateNext stranded.begun).2 :=
    ⟨_, rfl, rfl, rfl⟩
  have run := (run_forward hforward).again (.equip [("Gone", .link Key.pop)]) hended
  obtain ⟨past', run'⟩ := run.equip
  exact ⟨_, straying, past', _, fresh_born .stack, run', congrArg (equip · _) hsite⟩

/-- A failed `ITERATE` has lost its argument, and a failed `ITERATE1` has moved its cursor on. -/
theorem iteration_failure_gives_nothing_back :
    ((asked (.int 7)).Reachable ∧ (asked (.int 7)).machine.kind = .stack ∧
        (asked (.int 7)).currentBehaviour = .iterate ∧
        ∃ error s', (asked (.int 7)).Invokes (.error error) s' ∧
          (asked (.int 7)).machine.frames.head?.map Frame.argument = some (some (.int 7)) ∧
          s'.machine.frames.head?.map Frame.argument = some none) ∧
      stranded.Reachable ∧ stranded.machine.kind = .stack ∧
        stranded.currentBehaviour = .iterateNext ∧
        ∃ error s', stranded.Invokes (.error error) s' ∧
          Builtin.source? stranded.machine.frames = some (.listed [.int 1, .int 2]) ∧
          Builtin.source? s'.machine.frames = some (.listed [.int 2]) := by
  have hiterate : (asked (.int 7)).Invokes (Builtin.iterate (asked (.int 7)).begun).1
      (Builtin.iterate (asked (.int 7)).begun).2 := .builtin rfl rfl
  have hnext : stranded.Invokes (Builtin.iterateNext stranded.begun).1
      (Builtin.iterateNext stranded.begun).2 := .builtin rfl rfl
  exact ⟨⟨asked_reachable _, rfl, rfl, _, _, hiterate, rfl, rfl⟩,
    stranded_reachable, rfl, rfl, _, _, hnext, rfl, rfl⟩

end Site

namespace Execution

/-- A driver on the mended machine after a reset into `ITERATE1`. -/
def resumed : Nat → Execution Unit :=
  driven (start (Site.mended.answer (.move .reset (.key Key.iterateNext))).2 .stepOnce)

/-- The only call that is made returns at once. -/
theorem resumed_delivers
    (hands : (Site.mended.answer (.move .reset (.key Key.iterateNext))).2.HandsOut "Gone"
      [.int 2]) : ∃ visits last, Delivers resumed 1 "Gone" 0 last visits [.int 2] := by
  have hcalm : ∀ i, (resumed i).Honest ∧ (resumed i).site.KeepsBuiltins := by
    refine driven_of_periodic (P := fun e => e.Honest ∧ e.site.KeepsBuiltins) (by decide : 0 < 2)
      (driven_of_done ⟨rfl, rfl⟩ rfl : _ = resumed 12) fun i hi => ?_
    interval_cases i <;>
      exact ⟨trivial, ⟨_, rfl, rfl⟩, ⟨_, rfl, rfl⟩, ⟨_, rfl, rfl⟩⟩
  refine hands resumed rfl (drives_driven fun i => (hcalm i).1) (fun i => (hcalm i).2)
    fun i visit => ?_
  have hi : i < 11 := by
    by_contra hle
    exact absurd (visit.unbroken 11 (by omega)) (by decide +kernel)
  have hcases : ∀ i < 11, (resumed i).activated?.map Behaviour.key = some Key.iterateNext →
      (resumed (i + 1)).site.machine.frames.length = 3 → i = 0 := by
    decide +kernel
  obtain rfl := hcases i hi (congrArg (Option.map Behaviour.key) visit.active) visit.pushed
  exact ⟨6, .of_level (by decide) ⟨rfl, rfl⟩ rfl (by decide +kernel) (by decide +kernel), rfl, rfl⟩

end Execution

namespace Site

open Execution

/-- The first value is lost to the failed call; the second is handed out after the repair. -/
theorem iteration_failure_leaves_stranded :
    stranded.Reachable ∧ stranded.machine.kind = .stack ∧
      (∃ s', stranded.Invokes (.error (.unknownKey "Gone" Machine.automaticName)) s' ∧
        Builtin.source? s'.machine.frames = some (.listed [.int 2])) ∧
      ∃ visits last, Delivers resumed 1 "Gone" 0 last visits [.int 2] := by
  obtain ⟨-, hinvokes, hkept⟩ := stranded_reachable.iteration_failure_leaves rfl
  have hfails : stranded.IterateNextFails (.unknownKey "Gone" Machine.automaticName)
      (stranded.advanced (.listed [.int 2])) := .unknown rfl rfl rfl rfl
  obtain ⟨-, hloop⟩ := hkept _ _ hfails
  obtain ⟨v, after, hc, hsource, hresume⟩ := hloop (.listed [.int 1, .int 2]) rfl
  cases hc
  obtain ⟨s', hreset, hands⟩ := hresume mended "Gone"
    ⟨mended_reachable, rfl, rfl, rfl, rfl, by decide⟩
  obtain rfl : (mended.answer (.move .reset (.key Key.iterateNext))).2 = s' :=
    congrArg Prod.snd hreset
  exact ⟨stranded_reachable, rfl, ⟨_, (hinvokes rfl _ _).mpr hfails, hsource⟩,
    resumed_delivers (hands 1)⟩

end Site

end StateEngine
