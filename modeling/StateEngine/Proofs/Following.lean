import StateEngine.Proofs.Linking

/-!
# A table of links is followed

A machine that has nothing but links goes along the walk from the key that was selected. The drive
answers exactly if the walk ends, and the key where the walk ends decides the answer. Where the walk
passes a tag again, the drive never answers.
-/

namespace StateEngine

variable {ρ : Type}

namespace Links

/-- How the walk from a key ends on a machine with this name: what a drive answers, the tags it
invokes, and the keys that were entered. At a key that cannot be entered the last tag stays. -/
inductive Ends (links : Links) (name : String) (key : Key) :
    Except MachineError Unit → List Key → List Key → Prop where
  | done {tags : List Key} : links.Walks key tags Key.done →
      Ends links name key (.ok ()) tags (tags ++ [Key.done])
  | uninitialized {tags : List Key} : links.Walks key tags Key.uninitialized →
      Ends links name key (.error (.uninitialized name)) tags (tags ++ [Key.uninitialized])
  | fault {tags : List Key} {tag : Key} : links.Walks key (tags ++ [tag]) Key.error →
      Ends links name key (.error (.invoke name tag (.enterError tag))) (tags ++ [tag])
        (tags ++ [tag])
  | unknown {tags : List Key} {tag missing : Key} : links.Walks key (tags ++ [tag]) missing →
      missing ∉ links.tags → Key.isReserved missing = false →
      Ends links name key (.error (.invoke name tag (.unknownKey missing name))) (tags ++ [tag])
        (tags ++ [tag])

variable {links : Links} {name : String} {key : Key}

theorem next?_eq_none_of_reserved (free : ∀ tag ∈ links.tags, Key.isReserved tag = false)
    {last : Key} (hlast : Key.isReserved last = true) : links.next? last = none :=
  next?_eq_none_iff.mpr fun htag => by
    rw [free last htag] at hlast
    cases hlast

/-- A walk from a tag ends in one of the four ways, or passes some tag again. -/
theorem ends_or_revisits (hkey : key ∈ links.tags) (name : String) :
    (∃ r tags entered, links.Ends name key r tags entered) ∨ links.Revisits key := by
  by_cases hrevisits : links.Revisits key
  · exact .inr hrevisits
  left
  rw [revisits_iff_endless] at hrevisits
  push Not at hrevisits
  obtain ⟨tags, last, hwalk, hend⟩ := hrevisits
  have hlast := next?_eq_none_iff.mp hend
  rcases List.eq_nil_or_concat' tags with rfl | ⟨before, tag, rfl⟩
  · cases hwalk
    exact absurd hkey hlast
  cases hreserved : Key.isReserved last with
  | false => exact ⟨_, _, _, .unknown hwalk hlast hreserved⟩
  | true =>
    have hmem : last ∈ Key.reserved := List.contains_iff_mem.mp hreserved
    simp only [Key.reserved, List.mem_cons, List.not_mem_nil, or_false] at hmem
    rcases hmem with rfl | rfl | rfl
    · exact ⟨_, _, _, .fault hwalk⟩
    · exact ⟨_, _, _, .uninitialized hwalk⟩
    · exact ⟨_, _, _, .done hwalk⟩

/-- A walk that ends takes at most as many steps as there are tags. -/
theorem Ends.length_le {r : Except MachineError Unit} {tags entered : List Key}
    (free : ∀ tag ∈ links.tags, Key.isReserved tag = false)
    (h : links.Ends name key r tags entered) : tags.length ≤ links.tags.dedup.length := by
  cases h with
  | done hwalk | uninitialized hwalk | fault hwalk =>
    exact hwalk.length_le (hwalk.nodup_of_ended (next?_eq_none_of_reserved free (by decide)))
  | unknown hwalk hmissing =>
    exact hwalk.length_le (hwalk.nodup_of_ended (next?_eq_none_iff.mpr hmissing))

theorem exists_next?_of_revisits (h : links.Revisits key) :
    ∃ next, links.next? key = some next ∧ links.Revisits next := by
  rw [revisits_iff_endless] at h
  obtain ⟨next, hnext⟩ := Option.ne_none_iff_exists'.mp (h [] key .here)
  exact ⟨next, hnext, revisits_iff_endless.mpr fun tags last hwalk => h _ last (.on hnext hwalk)⟩

end Links

theorem History.path_keeping (limit : Nat) (log : List Record) :
    (keeping limit log).path =
      (log.map Record.target).drop ((log.map Record.target).length - limit) := by
  rw [path, keeping, List.map_drop, List.length_map]
  congr 1
  omega

namespace Site

/-- The drive from `s` never ends, whatever program waits for it. -/
def RunsOn (s : Site ρ) : Prop :=
  ∀ fuel (next : Except MachineError Unit → Program ρ) waiting,
    Execution.run fuel { site := s, focus := .go next, waiting } = none

theorem RunsOn.not_answers {s s' : Site ρ} (h : s.RunsOn) {r : Except MachineError Unit} :
    ¬ s.Answers .go r s' := by
  intro hanswer
  let next : Except MachineError Unit → Program ρ := fun _ => .fail .emptyStack
  obtain ⟨fuel, hrun⟩ := hanswer.run_eq (show next r = .fail .emptyStack from rfl)
  cases (h fuel next []).symm.trans hrun

/-- A drive never ends where every step reports a transition to where the same holds again. -/
theorem runsOn_of_steps {P : Site ρ → Prop}
    (on : ∀ s, P s → ∃ s₁, s.Steps (.ok true) s₁ ∧ P s₁) {s : Site ρ} (hs : P s) : s.RunsOn := by
  intro fuel next waiting
  induction fuel generalizing s with
  | zero => rfl
  | succ fuel ih =>
    obtain ⟨s₁, hstep, hs₁⟩ := on s hs
    rw [Execution.run, ← Option.not_isSome_iff_eq_none]
    intro hsome
    obtain ⟨r, hr⟩ := Option.isSome_iff_exists.mp hsome
    have hlater := (hstep.answers _ waiting).run_eq hr
    cases (ih hs₁).symm.trans hlater

/-- The drive from `s` ends with an answer on `s'`. It has invoked as many states as there are tags,
and the keys were entered one after another, the last of them for good. -/
structure Follows (s : Site ρ) (r : Except MachineError Unit) (tags entered : List Key)
    (s' : Site ρ) : Prop where
  goes : s.Goes r s'
  steps : s'.machine.steps = s.machine.steps + tags.length
  records : s.Records s' entered
  current : entered.getLast? = some s'.machine.current.key

variable [Inhabited ρ]

namespace Wired

variable {s₀ s : Site ρ} {links : Links} {key last : Key} {h : Handle} {frames : Stack}

/-- The last tag of a walk fails with what a transit to the end of the walk fails with. -/
theorem follows_broken (wired : s₀.Wired links) (inherits : s.Inherits s₀)
    (arrives : s.Arrives h frames) (hh : s₀.machine.table.get? key = some h) {tags : List Key}
    {tag : Key} (walk : links.Walks key (tags ++ [tag]) last) {e : MachineError}
    (he : ∀ s₁ : Site ρ, s₁.Inherits s₀ → s₁.machine.progressed = false →
      s₁.machine.name = s.machine.name → s₁.machine.current.key = tag →
      s₁.transitTo last = .error e) :
    ∃ s', s.Follows (.error (.invoke s.machine.name tag e)) (tags ++ [tag]) (tags ++ [tag]) s' := by
  obtain ⟨hbefore, hnext⟩ := Links.Walks.snoc_iff.mp walk
  obtain ⟨g, hg, -⟩ : ∃ g, s₀.machine.table.get? tag = some g ∧ _ := wired.linked hnext
  have hne := Key.ne_error_of_free (wired.free tag (Links.mem_tags_of_next? hnext))
  obtain ⟨s₁, there⟩ := wired.travels hbefore inherits arrives hh hg hne
  obtain ⟨rfl, -⟩ := wired.sound.lists _ _ hg
  have hkey : s₁.machine.current.key = g.key := by rw [there.arrives.current]
  obtain ⟨hd, hb⟩ := wired.ready there.inherits there.arrives hg hnext
  have hbegun : s₁.begun.Inherits s₀ :=
    ⟨there.inherits.sound.begun, there.inherits.table, there.inherits.store⟩
  have hstep := Steps.of_broken_link hd hb (he s₁.begun hbegun rfl there.name hkey)
  rw [there.name, hkey] at hstep
  refine ⟨s₁.begun, there.marches.goes (.failed hstep), ?_, there.records, ?_⟩
  · rw [List.length_append, List.length_singleton, ← Nat.add_assoc, ← there.steps]
    rfl
  · rw [List.getLast?_concat]
    exact congrArg some hkey.symm

/-- On a walk that passes a tag again every step reports a transition. -/
theorem runsOn (wired : s₀.Wired links) (inherits : s.Inherits s₀) (arrives : s.Arrives h frames)
    (hh : s₀.machine.table.get? key = some h) (revisits : links.Revisits key) : s.RunsOn := by
  refine runsOn_of_steps (P := fun s => ∃ key h frames, s.Inherits s₀ ∧ s.Arrives h frames ∧
    s₀.machine.table.get? key = some h ∧ links.Revisits key) ?_
    ⟨key, h, frames, inherits, arrives, hh, revisits⟩
  rintro s ⟨key, h, frames, inherits, arrives, hh, revisits⟩
  obtain ⟨next, hnext, hagain⟩ := Links.exists_next?_of_revisits revisits
  obtain ⟨_, hmore, -⟩ := Links.exists_next?_of_revisits hagain
  obtain ⟨g, hg, -⟩ : ∃ g, s₀.machine.table.get? next = some g ∧ _ := wired.linked hmore
  have hne := Key.ne_error_of_free (wired.free next (Links.mem_tags_of_next? hmore))
  obtain ⟨hd, hb⟩ := wired.ready inherits arrives hh hnext
  exact ⟨_, .of_link inherits.sound hd hb (inherits.table ▸ hg) hne, next, g,
    s.machine.frames, inherits.entered s.machine.frames hg hne, ⟨rfl, rfl, rfl⟩, hg, hagain⟩

section
variable (wired : s₀.Wired links)
  (hlisted : ∀ k, s₀.machine.table.contains k = true ↔ k ∈ links.tags ∨ Key.isReserved k = true)
  (inherits : s.Inherits s₀) (arrives : s.Arrives h frames)
  (hh : s₀.machine.table.get? key = some h)
include wired hlisted inherits arrives hh

/-- The drive does what the walk says. -/
theorem follows {r : Except MachineError Unit} {tags entered : List Key}
    (ends : links.Ends s.machine.name key r tags entered) :
    ∃ s', s.Follows r tags entered s' := by
  have hreserved : ∀ k, Key.isReserved k = true → ∃ g, s₀.machine.table.get? k = some g :=
    fun k hk => Option.isSome_iff_exists.mp ((hlisted k).mpr (.inr hk))
  cases ends with
  | done walk =>
    obtain ⟨g, hg⟩ := hreserved Key.done (by decide)
    obtain ⟨s', there⟩ := wired.travels walk inherits arrives hh hg (by decide)
    obtain ⟨hkey, -⟩ := wired.sound.lists _ _ hg
    have hdone : s'.machine.isDone = true := by
      rw [Machine.isDone, there.arrives.current, hkey]
      decide
    refine ⟨s', there.marches.goes (.rested (.idle (demand_of_done hdone))), there.steps,
      hkey ▸ there.records, ?_⟩
    rw [List.getLast?_concat, there.arrives.current, hkey]
  | uninitialized walk =>
    obtain ⟨g, hg⟩ := hreserved Key.uninitialized (by decide)
    obtain ⟨s', there⟩ := wired.travels walk inherits arrives hh hg (by decide)
    obtain ⟨hkey, -⟩ := wired.sound.lists _ _ hg
    have hcurrent : s'.machine.current.key = Key.uninitialized := by
      rw [there.arrives.current, hkey]
    have hd : s'.machine.demand = .error (.uninitialized s.machine.name) := by
      rw [Machine.demand, hcurrent, there.name, if_neg (by decide), if_neg (by decide), if_pos rfl]
    refine ⟨s', there.marches.goes (.failed (.refused hd)), there.steps, hkey ▸ there.records, ?_⟩
    rw [List.getLast?_concat, hcurrent]
  | fault walk =>
    obtain ⟨g, hg⟩ := hreserved Key.error (by decide)
    refine wired.follows_broken inherits arrives hh walk fun s₁ hinherits hp _ hkey => ?_
    rw [hinherits.sound.transitTo_eq hp, hinherits.table, hg, hkey]
    rfl
  | @unknown _ _ missing walk hmissing hfree =>
    have hnone : s₀.machine.table.get? missing = none := by
      rw [← Option.not_isSome_iff_eq_none]
      intro hsome
      rcases (hlisted missing).mp hsome with htag | hreserved
      · exact hmissing htag
      · rw [hfree] at hreserved
        cases hreserved
    refine wired.follows_broken inherits arrives hh walk fun s₁ hinherits hp hname _ => ?_
    rw [hinherits.sound.transitTo_eq hp, hinherits.table, hnone, hname]

/-- A drive answers as the walk ends. -/
theorem answers_go_iff_follows (hkey : key ∈ links.tags) {r : Except MachineError Unit}
    {s' : Site ρ} :
    s.Answers .go r s' ↔
      ∃ tags entered, links.Ends s.machine.name key r tags entered ∧
        s.Follows r tags entered s' := by
  constructor
  · intro hanswer
    rcases Links.ends_or_revisits hkey s.machine.name with ⟨r', tags, entered, ends⟩ | revisits
    · obtain ⟨s'', hfollows⟩ := wired.follows hlisted inherits arrives hh ends
      obtain ⟨rfl, rfl⟩ := hfollows.goes.answers.unique hanswer
      exact ⟨tags, entered, ends, hfollows⟩
    · exact absurd hanswer (wired.runsOn inherits arrives hh revisits).not_answers
  · rintro ⟨tags, entered, -, hfollows⟩
    exact hfollows.goes.answers

/-- A drive runs for ever exactly if the walk passes a tag again. -/
theorem runsOn_iff (hkey : key ∈ links.tags) : s.RunsOn ↔ links.Revisits key := by
  refine ⟨fun hnever => ?_, fun revisits => wired.runsOn inherits arrives hh revisits⟩
  rcases Links.ends_or_revisits hkey s.machine.name with ⟨r, tags, entered, ends⟩ | revisits
  · obtain ⟨s', hfollows⟩ := wired.follows hlisted inherits arrives hh ends
    exact absurd hfollows.goes.answers hnever.not_answers
  · exact revisits

end

end Wired

/-- On a new machine with links, a drive from a tag follows the walk. It answers exactly if the walk
ends, with the answer that the end of the walk decides, and runs for ever exactly if the walk passes
a tag again. When it answers it has invoked at most as many states as there are tags, the machine is
at the last key that was entered, and the history has the latest of the keys entered. -/
theorem drive_follows_links {s : Site ρ} {store : Store ρ} {id : MachineId}
    (hm : s.machine = (Machine.create store id .flat).1)
    (hs : s.store = (Machine.create store id .flat).2) {links : Links}
    (hfree : ∀ tag ∈ links.tags, Key.isReserved tag = false) {key : Key}
    (hkey : key ∈ links.tags) :
    ∃ s₁, (s.linkAll links).answer (.move .select (.key key)) = (.ok (), s₁) ∧
      (∀ k, s₁.machine.table.contains k = true ↔ k ∈ links.tags ∨ Key.isReserved k = true) ∧
      (∀ r : Except MachineError Unit, (∃ s', s₁.Answers .go r s') ↔
        ∃ tags entered, links.Ends s₁.machine.name key r tags entered) ∧
      (s₁.RunsOn ↔ links.Revisits key) ∧
      ∀ (r : Except MachineError Unit) s', s₁.Answers .go r s' →
        ∃ tags entered, links.Ends s₁.machine.name key r tags entered ∧
          s'.machine.steps = tags.length ∧ tags.length ≤ links.tags.dedup.length ∧
          entered.getLast? = some s'.machine.current.key ∧
          s'.machine.history.path = entered.drop (entered.length - 1024) := by
  have hbare : s.Wired [] :=
    ⟨sound_create store id .flat none (.withLimit 1024) [] (hm.trans rfl) hs, nofun, nofun⟩
  have wired : (s.linkAll links).Wired links := wired_linkAll hbare hfree
  have heq := s.linkAll_eq hfree
  have hlisted : ∀ k, (s.linkAll links).machine.table.contains k = true ↔
      k ∈ links.tags ∨ Key.isReserved k = true := by
    intro k
    rw [contains_linkAll s hfree, hm, Machine.contains_create]
    exact or_congr_right List.contains_iff_mem.symm
  obtain ⟨h, hh⟩ := Option.isSome_iff_exists.mp ((hlisted key).mpr (.inl hkey))
  have hlimit : (s.linkAll links).machine.history = .withLimit 1024 := by
    rw [heq, hm]
    rfl
  obtain ⟨hselect, selected⟩ := wired.sound.selects (by rw [heq, hm]; rfl) (by rw [heq, hm]; rfl)
    hlimit hh (Key.ne_error_of_free (hfree key hkey))
  refine ⟨_, congrArg (settle _) hselect, hlisted, fun r => ⟨?_, ?_⟩,
    wired.runsOn_iff hlisted selected.inherits selected.arrives hh hkey, fun r s' hanswer => ?_⟩
  · rintro ⟨s', hanswer⟩
    obtain ⟨tags, entered, ends, -⟩ := (wired.answers_go_iff_follows hlisted selected.inherits
      selected.arrives hh hkey).mp hanswer
    exact ⟨tags, entered, ends⟩
  · rintro ⟨tags, entered, ends⟩
    obtain ⟨s', hfollows⟩ := wired.follows hlisted selected.inherits selected.arrives hh ends
    exact ⟨s', hfollows.goes.answers⟩
  · obtain ⟨tags, entered, ends, hfollows⟩ := (wired.answers_go_iff_follows hlisted
      selected.inherits selected.arrives hh hkey).mp hanswer
    obtain ⟨log, hlog, hpath⟩ := selected.history_eq hfollows.records
    refine ⟨tags, entered, ends, ?_, ends.length_le hfree, hfollows.current, ?_⟩
    · rw [hfollows.steps, selected.steps, Nat.zero_add]
    · rw [hlog, History.path_keeping, hpath]

/-- A tag that is linked twice, and a link to a key that nobody adds. -/
def brokenLinks : Links := [("A", Key.done), ("A", "B"), ("B", "C")]

/-- The missing key is linked back to the one before it. -/
def roundLinks : Links := brokenLinks ++ [("C", "B")]

/-- The later link of the first tag counts, and the walk comes to the missing key. With that key
linked back, the walk goes round and round. -/
theorem drive_follows_links_to_missing :
    (∃ s₁ s', ((Site.fresh .flat : Site Unit).linkAll brokenLinks).answer
        (.move .select (.key "A")) = (.ok (), s₁) ∧
      s₁.Answers .go (.error (.invoke "machine-########" "B"
        (.unknownKey "C" "machine-########"))) s' ∧
      s'.machine.steps ≤ 2 ∧ s'.machine.current.key = "B") ∧
    ∃ s₁, ((Site.fresh .flat : Site Unit).linkAll roundLinks).answer
      (.move .select (.key "A")) = (.ok (), s₁) ∧ s₁.RunsOn := by
  constructor
  · have hwalk : brokenLinks.Walks "A" (["A"] ++ ["B"]) "C" := .on rfl (.on rfl .here)
    have hfree : ∀ tag ∈ brokenLinks.tags, Key.isReserved tag = false := by decide
    obtain ⟨s₁, hselect, -, hanswers, -, hall⟩ := drive_follows_links
      (s := (Site.fresh .flat : Site Unit)) rfl rfl hfree (show "A" ∈ brokenLinks.tags by decide)
    have hname : s₁.machine.name = "machine-########" :=
      (congrArg (fun r => r.2.machine.name) hselect).symm.trans rfl
    rw [hname] at hanswers hall
    obtain ⟨s', hanswer⟩ := (hanswers _).mpr ⟨_, _, .unknown hwalk (by decide) (by decide)⟩
    obtain ⟨tags, entered, ends, hsteps, hle, hcurrent, -⟩ := hall _ s' hanswer
    refine ⟨s₁, s', hselect, hanswer, hsteps ▸ hle, ?_⟩
    cases ends with
    | unknown => simpa using hcurrent.symm
  · have hwalk : roundLinks.Walks "A" ["A", "B", "C", "B"] "C" :=
      .on rfl (.on rfl (.on rfl (.on rfl .here)))
    have hfree : ∀ tag ∈ roundLinks.tags, Key.isReserved tag = false := by decide
    obtain ⟨s₁, hselect, -, -, hruns, -⟩ := drive_follows_links
      (s := (Site.fresh .flat : Site Unit)) rfl rfl hfree (show "A" ∈ roundLinks.tags by decide)
    exact ⟨s₁, hselect, hruns.mpr ⟨_, _, hwalk, by decide⟩⟩

end Site

end StateEngine
