import StateEngine.Proofs.Ledger
import StateEngine.Proofs.Taking

/-!
# What a failed call or return leaves behind

A call opens its frame before it enters the callee, and a return writes its result before it leaves.
Nothing is undone when the transition is then refused. So a failure before that point leaves the
machine as it was, and a refused transition leaves exactly the new frame or the new result.
-/

namespace StateEngine

variable {ρ : Type}

namespace Site

/-- The ways in which a call fails, and the site that each of them leaves. -/
inductive CallFails (s : Site ρ) (callee : Key) (argument : Option Value) (returnKey : Key) :
    MachineError → Site ρ → Prop where
  | unknown : s.machine.table.get? callee = none →
      CallFails s callee argument returnKey (.unknownKey callee s.machine.name) s
  | marked : s.machine.table.contains callee = true → s.machine.progressed = true →
      CallFails s callee argument returnKey (.alreadyProgressed s.machine.current.key callee)
        (s.withFrames (.opened returnKey argument :: s.machine.frames))
  | fault : callee = Key.error → s.machine.progressed = false →
      CallFails s callee argument returnKey (.enterError s.machine.current.key)
        (s.withFrames (.opened returnKey argument :: s.machine.frames))

/-- The ways in which a return with a result fails, and the site that each of them leaves. -/
inductive GiveBackFails (s : Site ρ) (value : Value) : MachineError → Site ρ → Prop where
  | empty : s.machine.frames = [] → GiveBackFails s value .emptyStack s
  | written {top : Frame} {rest : Stack} : s.machine.frames = top :: rest →
      top.result.isSome = true → GiveBackFails s value (.resultAlreadySet top.returnKey) s
  | marked {top : Frame} {rest : Stack} : s.machine.frames = top :: rest → top.result = none →
      s.machine.progressed = true →
      GiveBackFails s value (.alreadyProgressed s.machine.current.key Key.pop)
        (s.withFrames ({ top with result := some value } :: rest))

theorem writeResult_of_some {top : Frame} (h : top.result.isSome = true) (value : Value) :
    writeResult value top = .error (.resultAlreadySet top.returnKey) := by
  simp only [writeResult, Frame.putResult?, h, if_true]

theorem writeResult_of_none {top : Frame} (h : top.result = none) (value : Value) :
    writeResult value top = .ok { top with result := some value } := by
  simp only [writeResult, Frame.putResult?, h, Option.isSome_none, Bool.false_eq_true, if_false]

theorem settle_eq_error_iff {s s' : Site ρ} {r : Except MachineError (Site ρ)}
    {error : MachineError} : s.settle r = (.error error, s') ↔ r = .error error ∧ s' = s := by
  cases r with
  | ok after => simp [settle]
  | error e => simp [settle, eq_comm]

/-- A transit to a state of the machine is refused because of the mark or because of the fault state;
the mark comes first. -/
theorem transit_eq_error_iff {s : Site ρ} {h : Handle} (owned : s.Owns h) {error : MachineError} :
    s.transit h = .error error ↔
      (s.machine.progressed = true ∧ error = .alreadyProgressed s.machine.current.key h.key) ∨
        (s.machine.progressed = false ∧ h.key = Key.error ∧
          error = .enterError s.machine.current.key) := by
  rw [show s.transit h = s.enterBy .transit h from rfl, enterBy_eq_error_iff, commit_eq_error_iff]
  simp [owned]

theorem settle_transit_of_admits {s : Site ρ} {h : Handle} (admits : s.Admits .transit h) :
    s.settle (s.transit h) = (.ok (), s.entered .transit h) := by
  rw [transit_eq_ok_iff.mpr ⟨admits, rfl⟩, settle]

theorem settle_transit_of_marked {s : Site ρ} {h : Handle} (owned : s.Owns h)
    (hp : s.machine.progressed = true) :
    s.settle (s.transit h) = (.error (.alreadyProgressed s.machine.current.key h.key), s) :=
  settle_eq_error_iff.mpr ⟨(transit_eq_error_iff owned).mpr (.inl ⟨hp, rfl⟩), rfl⟩

theorem settle_transit_of_fault {s : Site ρ} {h : Handle} (owned : s.Owns h)
    (hp : s.machine.progressed = false) (he : h.key = Key.error) :
    s.settle (s.transit h) = (.error (.enterError s.machine.current.key), s) :=
  settle_eq_error_iff.mpr ⟨(transit_eq_error_iff owned).mpr (.inr ⟨hp, he, rfl⟩), rfl⟩

theorem transitTo_of_get? {s : Site ρ} {key : Key} {h : Handle}
    (hk : s.machine.table.get? key = some h) : s.transitTo key = s.transit h := by
  simp only [transitTo, move, resolve, Machine.decode_eq_ok_iff.mpr hk, enterBy]

/-- An operation fails in the listed ways and in no other if it fails in each of them, and succeeds
where none of them is at hand. -/
theorem eq_error_iff_of_total {r : Result ρ Unit} {Fails : MachineError → Site ρ → Prop}
    (given : ∀ e s', Fails e s' → r = (.error e, s'))
    (total : (∃ s', r = (.ok (), s')) ∨ ∃ e s', Fails e s') {e : MachineError} {s' : Site ρ} :
    r = (.error e, s') ↔ Fails e s' := by
  constructor
  · intro h
    rcases total with ⟨s₁, hok⟩ | ⟨e₁, s₁, hfails⟩
    · cases h.symm.trans hok
    · cases h.symm.trans (given e₁ s₁ hfails)
      exact hfails
  · exact given e s'

theorem call_of_get? {s : Site ρ} {callee : Key} {g : Handle}
    (hg : s.machine.table.get? callee = some g) (argument : Option Value) (returnKey : Key) :
    s.call callee argument returnKey =
      (s.withFrames (.opened returnKey argument :: s.machine.frames)).settle
        ((s.withFrames (.opened returnKey argument :: s.machine.frames)).transit g) := by
  simp only [call, Machine.decode_eq_ok_iff.mpr hg]

theorem CallFails.eq {s s' : Site ρ} (sound : s.Sound) {callee returnKey : Key}
    {argument : Option Value} {error : MachineError}
    (h : s.CallFails callee argument returnKey error s') :
    s.call callee argument returnKey = (.error error, s') := by
  cases h with
  | unknown hk => simp only [call, Machine.decode_of_get?_eq_none hk]
  | marked hc hp =>
    obtain ⟨g, hg⟩ := Option.isSome_iff_exists.mp hc
    obtain ⟨rfl, howned, -⟩ := sound.lists callee g hg
    rw [call_of_get? hg]
    exact settle_transit_of_marked howned hp
  | fault he hp =>
    obtain ⟨g, hg⟩ := Option.isSome_iff_exists.mp (he ▸ sound.error_listed)
    obtain ⟨hkey, howned, -⟩ := sound.lists callee g hg
    rw [call_of_get? hg]
    exact settle_transit_of_fault howned hp (hkey.trans he)

theorem Sound.call_eq_error_iff {s s' : Site ρ} (sound : s.Sound) {callee returnKey : Key}
    {argument : Option Value} {error : MachineError} :
    s.call callee argument returnKey = (.error error, s') ↔
      s.CallFails callee argument returnKey error s' := by
  refine eq_error_iff_of_total (fun e s' h => h.eq sound) ?_
  cases hk : s.machine.table.get? callee with
  | none => exact .inr ⟨_, _, .unknown hk⟩
  | some g =>
    cases hp : s.machine.progressed with
    | true => exact .inr ⟨_, _, .marked (by rw [Table.contains, hk]; rfl) hp⟩
    | false =>
      by_cases he : callee = Key.error
      · exact .inr ⟨_, _, .fault he hp⟩
      · exact .inl ⟨_, sound.call_eq hp hk he argument returnKey⟩

theorem giveBack_of_no_result {s : Site ρ} {top : Frame} {rest : Stack} {g : Handle}
    (hf : s.machine.frames = top :: rest) (hr : top.result = none)
    (hg : s.machine.table.get? Key.pop = some g) (value : Value) :
    s.giveBack value = (s.withFrames ({ top with result := some value } :: rest)).settle
      ((s.withFrames ({ top with result := some value } :: rest)).transit g) := by
  have hleave : (s.withFrames ({ top with result := some value } :: rest)).transitTo Key.pop =
      (s.withFrames ({ top with result := some value } :: rest)).transit g := transitTo_of_get? hg
  simp only [giveBack, onTop, hf, writeResult_of_none hr, hleave]

theorem Sound.giveBack_eq_error_iff {s s' : Site ρ} (sound : s.Sound) {value : Value}
    {error : MachineError} (hpop : s.machine.table.contains Key.pop = true) :
    s.giveBack value = (.error error, s') ↔ s.GiveBackFails value error s' := by
  obtain ⟨g, hg⟩ := Option.isSome_iff_exists.mp hpop
  obtain ⟨hkey, howned, -⟩ := sound.lists Key.pop g hg
  refine eq_error_iff_of_total (fun e s' h => ?_) ?_
  · cases h with
    | empty hf => simp only [giveBack, onTop, hf]
    | written hf hr => simp only [giveBack, onTop, hf, writeResult_of_some hr]
    | marked hf hr hp =>
      rw [giveBack_of_no_result hf hr hg, ← hkey]
      exact settle_transit_of_marked howned hp
  · cases hf : s.machine.frames with
    | nil => exact .inr ⟨_, _, .empty hf⟩
    | cons top rest =>
      cases hr : top.result with
      | some v => exact .inr ⟨_, _, .written hf (by rw [hr]; rfl)⟩
      | none =>
        cases hp : s.machine.progressed with
        | true => exact .inr ⟨_, _, .marked hf hr hp⟩
        | false =>
          rw [giveBack_of_no_result hf hr hg]
          exact .inl ⟨_, settle_transit_of_admits ⟨fun _ => hp, howned, hkey ▸ by decide⟩⟩

end Site

theorem Execution.Run.kind_eq {first e : Execution ρ} {past : List (Execution ρ)}
    (run : Run first past e) : e.site.machine.kind = first.site.machine.kind :=
  run.keeps (P := fun m => m.kind = first.site.machine.kind) (fun deed h => deed.kind_eq.trans h)
    rfl

/-- A machine never loses the keys that it started with. -/
theorem Site.Born.contains_builtin {s : Site ρ} (born : s.Born) {key : Key}
    (hkey : key ∈ s.machine.kind.builtinKeys) : s.machine.table.contains key = true := by
  refine Born.induction
    (P := fun s : Site ρ => key ∈ s.machine.kind.builtinKeys →
      s.machine.table.contains key = true) ?_ ?_ ?_ ?_ born hkey
  · intro s s' h hm _ hkey
    rw [hm] at hkey ⊢
    exact h hkey
  · intro store id kind given limit observers s hm _ hkey
    rw [hm] at hkey ⊢
    exact (Machine.contains_create store id kind key).mpr hkey
  · exact fun s h s' hs _ hd hkey => hd.contains (hs (hd.kind_eq ▸ hkey))
  · exact fun s key s' hs hd hkey => hd.contains (hs (hd.kind_eq ▸ hkey))

theorem Site.Reachable.contains_builtin {s : Site ρ} (reachable : s.Reachable) {key : Key}
    (hkey : key ∈ s.machine.kind.builtinKeys) : s.machine.table.contains key = true := by
  obtain ⟨first, p, past, e, born, run, rfl⟩ := reachable
  exact run.contains (born.contains_builtin (run.kind_eq ▸ hkey))

/-- A call and a return with a result fail in the listed ways and in no other, and leave exactly the
site that goes with each. An unknown key, a second result and an empty stack change nothing. A
transition that is refused leaves the new frame on top of the others, or the result in the innermost
frame, and nothing else. -/
theorem Site.Reachable.failure_leaves {s : Site ρ} (reachable : s.Reachable)
    (hkind : s.machine.kind = .stack) :
    (∀ callee argument returnKey error s',
        s.call callee argument returnKey = (.error error, s') ↔
          s.CallFails callee argument returnKey error s') ∧
      ∀ value error s', s.giveBack value = (.error error, s') ↔
        s.GiveBackFails value error s' := by
  have sound := reachable.sound
  have hpop := reachable.contains_builtin (hkind ▸ by decide : Key.pop ∈ s.machine.kind.builtinKeys)
  constructor
  · intro callee argument returnKey error s'
    exact sound.call_eq_error_iff
  · intro value error s'
    exact sound.giveBack_eq_error_iff hpop

/-- A fresh stack machine that has selected `POP`. -/
def Site.sentToPop : Site Unit := ((Site.fresh .stack).answer (.move .select (.key Key.pop))).2

theorem Site.sentToPop_reachable : sentToPop.Reachable :=
  Site.answer_equip_reachable (Site.fresh_born .stack) [] trivial

/-- A second transition is refused, to a call and to a return with a result. -/
theorem Site.failure_leaves_at_pop :
    Site.sentToPop.Reachable ∧ Site.sentToPop.machine.kind = .stack ∧
      Site.sentToPop.call Key.pop (some .unit) Key.done =
        (.error (.alreadyProgressed Key.pop Key.pop),
          Site.sentToPop.withFrames [.opened Key.done (some .unit), Stack.sentinel]) ∧
      Site.sentToPop.giveBack (.int 7) =
        (.error (.alreadyProgressed Key.pop Key.pop),
          Site.sentToPop.withFrames [{ Stack.sentinel with result := some (.int 7) }]) := by
  obtain ⟨hcall, hreturn⟩ := Site.sentToPop_reachable.failure_leaves rfl
  refine ⟨Site.sentToPop_reachable, rfl, ?_, ?_⟩
  · exact (hcall _ _ _ _ _).mpr (.marked rfl rfl)
  · exact (hreturn _ _ _).mpr (.marked rfl rfl rfl)

/-- A call to the fault state, a second transition by a call and a second transition by a return all
fail, and none of them leaves the frames as they were. -/
theorem Site.failure_changes_frames :
    (Site.fresh .stack : Site Unit).Reachable ∧ Site.sentToPop.Reachable ∧
      (∃ error s', (Site.fresh .stack : Site Unit).call Key.error (some .unit) Key.done =
        (.error error, s') ∧ s'.machine.frames ≠ (Site.fresh .stack : Site Unit).machine.frames) ∧
      (∃ error s', Site.sentToPop.call Key.pop (some .unit) Key.done = (.error error, s') ∧
        s'.machine.frames ≠ Site.sentToPop.machine.frames) ∧
      ∃ error s', Site.sentToPop.giveBack (.int 7) = (.error error, s') ∧
        s'.machine.frames ≠ Site.sentToPop.machine.frames := by
  have higher : ∀ {a b : Stack}, a.length ≠ b.length → a ≠ b := fun h heq => h (heq ▸ rfl)
  refine ⟨?_, Site.sentToPop_reachable, ⟨_, _, rfl, ?_⟩, ⟨_, _, rfl, ?_⟩, ⟨_, _, rfl, ?_⟩⟩
  · exact ⟨_, .done (), [], _, Site.fresh_born .stack, .start, rfl⟩
  · exact higher (by decide)
  · exact higher (by decide)
  · intro heq
    have hresult := congrArg (fun frames : Stack => (frames.head?.bind Frame.result).isSome) heq
    exact absurd hresult (by decide)

end StateEngine
