import StateEngine.Proofs.Marching

/-!
# Unwinding tail calls

A state that is called with `POP` as the key to return to hands its own return over to the call
below. When the innermost call of such a chain returns, the chain is unwound frame by frame, until
one returns elsewhere. Each frame but that last one gives its result to a frame that is itself about
to go, so the result of the last one is what the caller of the chain finds.
-/

namespace StateEngine

variable {ρ : Type}

namespace Site

/-- Steps that each invoke `POP` and report a transition. -/
inductive Unwinds : Site ρ → Nat → Site ρ → Prop where
  | here {s : Site ρ} : Unwinds s 0 s
  | pop {s s₁ s' : Site ρ} {n : Nat} : s.machine.demand = .ok true → s.currentBehaviour = .pop →
      s.Answers .step (.ok true) s₁ → Unwinds s₁ n s' → Unwinds s (n + 1) s'

/-- A return leaves the frames below it with their own return keys and results. -/
theorem delivered_append (result : Option Value) (chain : List Frame) (last : Frame)
    (below : Stack) : ∃ chain' last', Builtin.delivered result (chain ++ last :: below) =
      chain' ++ last' :: below ∧ chain'.map Frame.returnKey = chain.map Frame.returnKey ∧
        last'.returnKey = last.returnKey ∧ last'.result = last.result := by
  cases chain with
  | nil => exact ⟨[], last.bind Key.resultVar result, rfl, rfl, rfl, rfl⟩
  | cons top chain => exact ⟨top.bind Key.resultVar result :: chain, last, rfl, rfl, rfl, rfl⟩

/-- A chain of frames that return through `POP`, above one that returns elsewhere, is gone after as
many steps as there are frames. The induction is on their number and not on the chain: each step
writes its result to the next frame, so the chain it leaves is another one. -/
theorem Sound.unwinds {s : Site ρ} (sound : s.Sound) {n : Nat} {chain : List Frame}
    {last caller : Frame} {rest : Stack} {g : Handle} (hb : s.currentBehaviour = .pop)
    (hp : s.machine.progressed = true)
    (hframes : s.machine.frames = chain ++ last :: caller :: rest)
    (tail : chain.map Frame.returnKey = List.replicate n Key.pop)
    (registers : n ≠ 0 → s.Registers .pop)
    (hg : s.machine.table.get? last.returnKey = some g) (hne : last.returnKey ≠ Key.error) :
    ∃ s', s.Unwinds (n + 1) s' ∧ s'.machine.current = g ∧ s'.machine.progressed = true ∧
      s'.machine.frames = caller.bind Key.resultVar last.result :: rest := by
  induction n generalizing s chain last with
  | zero =>
    obtain rfl : chain = [] := List.map_eq_nil_iff.mp tail
    have hs := sound.steps_pop hb hp hframes hg hne
    exact ⟨_, .pop (sound.demand_of_pop hb hp) hb hs.answers .here, rfl, rfl, rfl⟩
  | succ n ih =>
    obtain ⟨top, chain, rfl, hreturn, tail⟩ := List.map_eq_cons_iff.mp tail
    obtain ⟨h, hh, hhb⟩ := registers (Nat.succ_ne_zero n)
    have hlisted : s.machine.table.get? top.returnKey = some h := hreturn ▸ hh
    have hfree : top.returnKey ≠ Key.error := hreturn ▸ by decide
    obtain ⟨chain', last', hleft, hkeys, hkey, hresult⟩ :=
      delivered_append top.result chain last (caller :: rest)
    have hs : s.Steps (.ok true) ((s.begun.withFrames
        (Builtin.delivered top.result (chain ++ last :: caller :: rest))).entered .transit h) :=
      sound.steps_pop hb hp hframes hlisted hfree
    rw [hleft] at hs
    have hb' : ((s.begun.withFrames (chain' ++ last' :: caller :: rest)).entered
        .transit h).currentBehaviour = .pop := by
      rw [currentBehaviour, entered_current, entered_store, withFrames_store]
      exact congrArg (Option.getD · _) hhb
    obtain ⟨s', hunwinds, hcurrent, hmarked, hleft'⟩ :=
      ih (sound.entered_listed hlisted hfree (chain' ++ last' :: caller :: rest))
        hb' rfl rfl (hkeys.trans tail) (fun _ => ⟨h, hh, hhb⟩) (hkey ▸ hg) (hkey ▸ hne)
    exact ⟨s', .pop (sound.demand_of_pop hb hp) hb hs.answers hunwinds, hcurrent, hmarked,
      hresult ▸ hleft'⟩

/-- However a machine came to enter `POP` and whatever stands on its stack, a chain of tail calls is
unwound by as many steps as there are frames in it, each of which invokes `POP`. The machine is then
in the state that the last frame of the chain names, and the caller of the chain finds the result of
that frame, whatever the others had to return. -/
theorem Reachable.chain_unwinds {s : Site ρ} (reachable : s.Reachable)
    (hb : s.currentBehaviour = .pop) (hp : s.machine.progressed = true) {chain : List Frame}
    {last : Frame} (caller : Frame) (rest : Stack) {g : Handle}
    (tail : ∀ frame ∈ chain, frame.returnKey = Key.pop)
    (registers : chain ≠ [] → s.Registers .pop)
    (hg : s.machine.table.get? last.returnKey = some g) (hne : last.returnKey ≠ Key.error) :
    ∃ s' after, (s.withFrames (chain ++ last :: caller :: rest)).Unwinds (chain.length + 1) s' ∧
      s'.machine.current = g ∧ s'.machine.progressed = true ∧
      s'.machine.frames = after :: rest ∧ after.binding? Key.resultVar = some last.result ∧
      (∀ name ≠ Key.resultVar, after.binding? name = caller.binding? name) ∧
      after.header = caller.header ∧ after.result = caller.result := by
  have tail' : chain.map Frame.returnKey = List.replicate chain.length Key.pop := by
    rw [List.eq_replicate_iff]
    simpa using tail
  have registers' : chain.length ≠ 0 → s.Registers .pop := by simpa using registers
  obtain ⟨s', hunwinds, hcurrent, hmarked, hframes⟩ :=
    (reachable.sound.withFrames (chain ++ last :: caller :: rest)).unwinds hb hp rfl tail'
      registers' hg hne
  have hbound : (caller.bind Key.resultVar last.result).binding? Key.resultVar =
      some last.result := by
    rw [Frame.binding?, Frame.bind, Table.get?_insert, if_pos rfl]
  exact ⟨s', _, hunwinds, hcurrent, hmarked, hframes, hbound,
    fun name hname => Frame.binding?_bind_of_ne hname caller last.result, rfl, rfl⟩

/-- Two calls that return through `POP` have results of their own, which nobody gets to see. -/
theorem chain_unwinds_twice : ∃ (s s' : Site Unit) (after : Frame),
    (s.withFrames [⟨Key.pop, none, some (.int 1), .empty⟩, ⟨Key.pop, none, some (.int 2), .empty⟩,
      ⟨Key.done, none, some (.int 7), .empty⟩,
      Stack.sentinel.bind "x" (some (.int 3))]).Unwinds 3 s' ∧
    s'.machine.current.key = Key.done ∧ s'.machine.frames = [after] ∧
    after.binding? Key.resultVar = some (some (.int 7)) ∧
    after.binding? "x" = some (some (.int 3)) := by
  let s : Site Unit := (((Site.fresh .stack).equip []).answer (.move .select (.key Key.pop))).2
  have reachable : s.Reachable := answer_equip_reachable (fresh_born .stack) [] trivial
  obtain ⟨g, hg, hkey⟩ : ∃ g, s.machine.table.get? Key.done = some g ∧ g.key = Key.done :=
    ⟨_, rfl, rfl⟩
  let chain : List Frame :=
    [⟨Key.pop, none, some (.int 1), .empty⟩, ⟨Key.pop, none, some (.int 2), .empty⟩]
  have tail : ∀ frame ∈ chain, frame.returnKey = Key.pop := by simp [chain]
  let last : Frame := ⟨Key.done, none, some (.int 7), .empty⟩
  have hlast : s.machine.table.get? last.returnKey = some g := hg
  obtain ⟨s', after, hunwinds, hcurrent, -, hframes, hresult, hothers, -⟩ :=
    reachable.chain_unwinds rfl rfl (Stack.sentinel.bind "x" (some (.int 3))) [] tail
      (fun _ => ⟨_, rfl, rfl⟩) hlast (by decide)
  exact ⟨s, s', after, hunwinds, hcurrent ▸ hkey, hframes, hresult,
    (hothers "x" (by decide)).trans rfl⟩

end Site

end StateEngine
