import Mathlib.Data.List.Dedup
import Mathlib.Data.List.Perm.Subperm
import StateEngine.Proofs.Marching
import StateEngine.Proofs.Taking

/-!
# Links

A link is a state that goes on to another key whatever happens. A list of links, of which a later one
takes the place of an earlier one with the same tag, leads from every key along one walk. The walk
comes to a key that is no tag, and then it has passed no tag twice, or it passes some tag again and
never ends. A machine with these links marches along the walk.
-/

namespace StateEngine

variable {ρ : Type}

/-- Links, each from its tag to the key that follows. -/
abbrev Links := List (Key × Key)

namespace Links

def tags (links : Links) : List Key := links.map Prod.fst

/-- Where a tag leads: of the links with that tag the last one counts. -/
def next? (links : Links) (tag : Key) : Option Key := links.reverse.lookup tag

/-- The walk from a key passes the tags and comes to the last key. -/
inductive Walks (links : Links) : Key → List Key → Key → Prop where
  | here {key : Key} : Walks links key [] key
  | on {tag next last : Key} {tags : List Key} : links.next? tag = some next →
      Walks links next tags last → Walks links tag (tag :: tags) last

/-- The walk from a key passes some tag again. -/
def Revisits (links : Links) (key : Key) : Prop :=
  ∃ tags last, links.Walks key tags last ∧ ¬ tags.Nodup

theorem next?_append_singleton (links : Links) (tag next key : Key) :
    (links ++ [(tag, next)]).next? key = if key = tag then some next else links.next? key := by
  rw [next?, List.reverse_append, List.reverse_singleton, List.singleton_append]
  split
  · rename_i heq
    rw [heq, Table.lookup_cons_self]
  · rename_i hne
    rw [Table.lookup_cons_of_ne hne]
    rfl

theorem next?_eq_none_iff {links : Links} {key : Key} :
    links.next? key = none ↔ key ∉ links.tags := by
  rw [next?, List.lookup_eq_none_iff, tags, List.mem_map]
  constructor
  · rintro hall ⟨link, hlink, rfl⟩
    simpa using hall link (List.mem_reverse.mpr hlink)
  · intro hnone link hlink
    exact bne_iff_ne.mpr fun heq => hnone ⟨link, List.mem_reverse.mp hlink, heq.symm⟩

theorem mem_of_next? {links : Links} {tag next : Key} (h : links.next? tag = some next) :
    (tag, next) ∈ links := by
  obtain ⟨before, after, heq, -⟩ := List.lookup_eq_some_iff.mp h
  exact List.mem_reverse.mp (heq ▸ List.mem_append_right before List.mem_cons_self)

theorem mem_tags_of_next? {links : Links} {tag next : Key} (h : links.next? tag = some next) :
    tag ∈ links.tags :=
  List.mem_map_of_mem (mem_of_next? h)

theorem exists_next?_of_mem {links : Links} {key : Key} (h : key ∈ links.tags) :
    ∃ next, links.next? key = some next :=
  Option.ne_none_iff_exists'.mp fun hnone => next?_eq_none_iff.mp hnone h

namespace Walks

variable {links : Links} {key middle last final : Key} {tags more : List Key}

theorem append (h : links.Walks key tags middle) (h' : links.Walks middle more last) :
    links.Walks key (tags ++ more) last := by
  induction h with
  | here => exact h'
  | on hnext _ ih => exact .on hnext (ih h')

theorem split (h : links.Walks key (tags ++ middle :: more) last) :
    links.Walks key tags middle ∧ links.Walks middle (middle :: more) last := by
  induction tags generalizing key with
  | nil =>
    cases h with
    | on hnext hrest => exact ⟨.here, .on hnext hrest⟩
  | cons tag tags ih =>
    cases h with
    | on hnext hrest =>
      obtain ⟨hbefore, hafter⟩ := ih hrest
      exact ⟨.on hnext hbefore, hafter⟩

theorem snoc_iff : links.Walks key (tags ++ [middle]) last ↔
    links.Walks key tags middle ∧ links.next? middle = some last := by
  constructor
  · intro h
    obtain ⟨hbefore, hstep⟩ := h.split
    cases hstep with
    | on hnext hrest =>
      cases hrest
      exact ⟨hbefore, hnext⟩
  · rintro ⟨hbefore, hnext⟩
    exact hbefore.append (.on hnext .here)

theorem subset_tags (h : links.Walks key tags last) : tags ⊆ links.tags := by
  induction h with
  | here => exact List.nil_subset _
  | on hnext _ ih => exact List.cons_subset.mpr ⟨mem_tags_of_next? hnext, ih⟩

/-- There is one walk from a key: where it ends, it has passed every tag that it passes. -/
theorem isPrefix_of_ended (h : links.Walks key tags last) (ended : links.Walks key more final)
    (hend : links.next? final = none) : tags <+: more := by
  induction h generalizing more with
  | here => exact List.nil_prefix
  | on hnext _ ih =>
    cases ended with
    | here => cases hnext.symm.trans hend
    | on hnext' hrest =>
      obtain rfl := Option.some.inj (hnext.symm.trans hnext')
      exact List.prefix_cons_inj _ |>.mpr (ih hrest)

theorem nodup_of_ended (h : links.Walks key tags last) (hend : links.next? last = none) :
    tags.Nodup := by
  induction h with
  | here => exact List.nodup_nil
  | @on tag next last tags hnext hrest ih =>
    refine List.nodup_cons.mpr ⟨fun hagain => ?_, ih hend⟩
    -- From a tag that is passed twice the walk would have to end in two numbers of steps.
    obtain ⟨before, after, rfl⟩ := List.append_of_mem hagain
    have hlonger := (Walks.on hnext hrest).isPrefix_of_ended hrest.split.2 hend
    have hlength := hlonger.length_le
    simp only [List.length_cons, List.length_append] at hlength
    omega

/-- A walk that passes no tag twice takes at most as many steps as there are tags. -/
theorem length_le (h : links.Walks key tags last) (hnodup : tags.Nodup) :
    tags.length ≤ links.tags.dedup.length :=
  (List.subperm_of_subset hnodup
    fun _ ht => List.mem_dedup.mpr (h.subset_tags ht)).length_le

end Walks

/-- A walk that never ends can be followed for any number of steps. -/
theorem exists_walk_of_endless {links : Links} {key : Key}
    (endless : ∀ tags last, links.Walks key tags last → links.next? last ≠ none) (n : Nat) :
    ∃ tags last, links.Walks key tags last ∧ tags.length = n := by
  induction n with
  | zero => exact ⟨[], key, .here, rfl⟩
  | succ n ih =>
    obtain ⟨tags, last, hwalk, hlength⟩ := ih
    obtain ⟨next, hnext⟩ := Option.ne_none_iff_exists'.mp (endless tags last hwalk)
    exact ⟨tags ++ [last], next, Walks.snoc_iff.mpr ⟨hwalk, hnext⟩, by simp [hlength]⟩

/-- A walk passes a tag again exactly if it never ends. -/
theorem revisits_iff_endless {links : Links} {key : Key} :
    links.Revisits key ↔ ∀ tags last, links.Walks key tags last → links.next? last ≠ none := by
  constructor
  · rintro ⟨tags, last, hwalk, htwice⟩ ended final hended hend
    exact htwice ((hended.nodup_of_ended hend).sublist
      (hwalk.isPrefix_of_ended hended hend).sublist)
  · intro endless
    obtain ⟨tags, last, hwalk, hlength⟩ :=
      exists_walk_of_endless endless (links.tags.dedup.length + 1)
    refine ⟨tags, last, hwalk, fun hnodup => ?_⟩
    have hle := hwalk.length_le hnodup
    omega

end Links

namespace Site

section March

variable [Inhabited ρ]

/-- A state that is linked to an entry of the table enters it and returns. -/
theorem Steps.of_link {s : Site ρ} {tag next : Key} {g : Handle} (sound : s.Sound)
    (hd : s.machine.demand = .ok true) (hb : s.currentBehaviour = .routine tag (.link next))
    (hg : s.machine.table.get? next = some g) (hne : next ≠ Key.error) :
    s.Steps (.ok true) (s.begun.entered .transit g) := by
  have hmove : s.begun.answer (.move .transit (.key next)) =
      (.ok (), s.begun.entered .transit g) := sound.begun.settle_transitTo rfl hg hne
  have hperform : (Execution.start s.begun (.link next)).next =
      .inl (.start (s.begun.entered .transit g) (.done default)) := by
    simp only [Execution.start, Program.link, Execution.next, hmove, Program.settle]
  have hrun : Execution.run 2 (.start s.begun (.link next)) =
      some (.finished default, s.begun.entered .transit g) := by
    rw [Execution.run, hperform]
    rfl
  exact .of_run hd hb hrun rfl

/-- A state that is linked to a key where nothing can be entered fails, and stays current. -/
theorem Steps.of_broken_link {s : Site ρ} {tag next : Key} {e : MachineError}
    (hd : s.machine.demand = .ok true) (hb : s.currentBehaviour = .routine tag (.link next))
    (he : s.begun.transitTo next = .error e) :
    s.Steps (.error (.invoke s.machine.name s.machine.current.key e)) s.begun := by
  have hmove : s.begun.answer (.move .transit (.key next)) = (.error e, s.begun) := by
    change s.begun.settle (s.begun.transitTo next) = _
    rw [he]
    rfl
  have hperform : (Execution.start s.begun (.link next)).next =
      .inl (.start s.begun (.fail e)) := by
    simp only [Execution.start, Program.link, Execution.next, hmove, Program.settle]
  have hrun : Execution.run 2 (.start s.begun (.link next)) = some (.failed e, s.begun) := by
    rw [Execution.run, hperform]
    rfl
  exact .failed hd (.failed 2 hb hrun)

/-- Every link stands in the table as a state of its own. -/
structure Wired (s : Site ρ) (links : Links) : Prop where
  sound : s.Sound
  linked : ∀ {tag next}, links.next? tag = some next → s.Registers (.routine tag (.link next))
  free : ∀ tag ∈ links.tags, Key.isReserved tag = false

namespace Wired

variable {s₀ s : Site ρ} {links : Links} {key last : Key} {h g : Handle} {frames : Stack}

/-- What stands beside the machine and the store has no part in it. -/
theorem aside (wired : s.Wired links) {s' : Site ρ} (hm : s'.machine = s.machine)
    (hs : s'.store = s.store) : s'.Wired links where
  sound := wired.sound.grows (hs ▸ .refl _) (by rw [hm]) (by rw [hm]) (by rw [hm])
  linked hnext := by
    obtain ⟨g, hg, hb⟩ := wired.linked hnext
    exact ⟨g, by rw [hm]; exact hg, by rw [hs]; exact hb⟩
  free := wired.free

/-- The state that was just entered under a tag is ready to be invoked. -/
theorem ready (wired : s₀.Wired links) (inherits : s.Inherits s₀) (arrives : s.Arrives h frames)
    {tag next : Key} (hh : s₀.machine.table.get? tag = some h)
    (hnext : links.next? tag = some next) :
    s.machine.demand = .ok true ∧ s.currentBehaviour = .routine tag (.link next) :=
  ⟨inherits.demand_eq hh (wired.free tag (Links.mem_tags_of_next? hnext)) arrives,
    inherits.currentBehaviour_eq ((wired.linked hnext).behaviour?_eq hh) arrives⟩

/-- A machine marches along the walk to any key whose entry can be entered. -/
theorem travels (wired : s₀.Wired links) {tags : List Key} (walk : links.Walks key tags last)
    (inherits : s.Inherits s₀) (arrives : s.Arrives h frames)
    (hh : s₀.machine.table.get? key = some h) (hg : s₀.machine.table.get? last = some g)
    (hne : last ≠ Key.error) : ∃ s', s₀.Travels s tags g frames s' := by
  induction walk generalizing s h with
  | here =>
    obtain rfl := Option.some.inj (hh.symm.trans hg)
    exact ⟨s, .refl inherits arrives⟩
  | @on tag next last tags hnext hrest ih =>
    have hfree := wired.free tag (Links.mem_tags_of_next? hnext)
    -- The next key can be entered: it is a tag again, or the walk comes to rest there.
    obtain ⟨f, hf, hfne⟩ : ∃ f, s₀.machine.table.get? next = some f ∧ next ≠ Key.error := by
      cases hrest with
      | here => exact ⟨g, hg, hne⟩
      | on hmore =>
        obtain ⟨f, hf, -⟩ := wired.linked hmore
        exact ⟨f, hf, Key.ne_error_of_free (wired.free next (Links.mem_tags_of_next? hmore))⟩
    obtain ⟨s₁, first⟩ : ∃ s₁, s₀.Travels s [tag] f frames s₁ := by
      refine inherits.travels arrives hh hfree hf hfne fun hd => ?_
      have hstep := Steps.of_link inherits.sound hd (wired.ready inherits arrives hh hnext).2
        (inherits.table ▸ hf) hfne
      rwa [← arrives.frames]
    obtain ⟨s', others⟩ := ih first.inherits first.arrives hf hg hne
    exact ⟨s', first.trans others⟩

end Wired

end March

/-! ## Selecting a first state -/

/-- The first transition of a machine has entered a state. -/
structure Selected (s₀ s : Site ρ) (h : Handle) (limit : Nat) : Prop where
  inherits : s.Inherits s₀
  arrives : s.Arrives h s₀.machine.frames
  steps : s.machine.steps = 0
  history : ∃ r : Record, s.machine.history = .keeping limit [r] ∧ r.target = h.key

theorem Sound.selects {s : Site ρ} (sound : s.Sound) (hp : s.machine.progressed = false)
    (hsteps : s.machine.steps = 0) {limit : Nat} (hhistory : s.machine.history = .withLimit limit)
    {key : Key} {h : Handle} (hk : s.machine.table.get? key = some h) (hne : key ≠ Key.error) :
    s.move .select (.key key) = .ok (s.entered .select h) ∧
      s.Selected (s.entered .select h) h limit := by
  obtain ⟨rfl, howned, hknown⟩ := sound.lists _ _ hk
  refine ⟨by simp only [sound.move_select_eq hp, hk, if_neg hne], ?_, ⟨rfl, rfl, rfl⟩, hsteps, ?_⟩
  · exact ⟨sound.entered ⟨fun _ => hp, howned, hne⟩ hknown, rfl, rfl⟩
  · refine ⟨s.recordOf h, ?_, rfl⟩
    change s.machine.history.record _ = _
    rw [hhistory, History.withLimit_eq_keeping, History.record_keeping]
    rfl

theorem Selected.aside {s₀ s s' : Site ρ} {h : Handle} {limit : Nat}
    (selected : s₀.Selected s h limit) (hm : s'.machine = s.machine) (hs : s'.store = s.store) :
    s₀.Selected s' h limit where
  inherits := by
    obtain ⟨sound, htable, hstore⟩ := selected.inherits
    exact ⟨sound.grows (hs ▸ .refl _) (by rw [hm]) (by rw [hm]) (by rw [hm]),
      by rw [hm, htable], by rw [hs, hstore]⟩
  arrives := by
    obtain ⟨hcurrent, hprogressed, hframes⟩ := selected.arrives
    exact ⟨by rw [hm, hcurrent], by rw [hm, hprogressed], by rw [hm, hframes]⟩
  steps := by rw [hm, selected.steps]
  history := by rw [hm]; exact selected.history

/-- The history keeps the latest of all the keys entered since. -/
theorem Selected.history_eq {s₀ s s' : Site ρ} {h : Handle} {limit : Nat} {path : List Key}
    (selected : s₀.Selected s h limit) (records : s.Records s' path) :
    ∃ log, s'.machine.history = .keeping limit log ∧ log.map Record.target = path := by
  obtain ⟨r, hr, htarget⟩ := selected.history
  obtain ⟨log, hlog, hpath⟩ := records
  refine ⟨r :: log, by rw [hlog, hr, History.recordAll_keeping]; rfl, ?_⟩
  rw [List.map_cons, htarget, ← hpath, selected.arrives.current]

/-! ## Adding links -/

/-- The site after a state was made and taken. -/
def adding (s : Site ρ) (key : Key) (body : Program ρ) : Site ρ :=
  Site.taking { s with store := (s.store.alloc { owner := none, behaviour := .routine key body }).2 }
    (s.store.alloc { owner := none, behaviour := .routine key body }).1

theorem contains_adding (s : Site ρ) (key : Key) (body : Program ρ) (k : Key) :
    (s.adding key body).machine.table.contains k = true ↔
      k = key ∨ s.machine.table.contains k = true :=
  Store.contains_insert _ _ _ _

variable [Inhabited ρ]

/-- Makes links and takes them into the table, one after another. -/
def linkAll (s : Site ρ) (links : Links) : Site ρ :=
  s.equip (links.map fun link => (link.1, .link link.2))

theorem linkAll_cons (s : Site ρ) {tag : Key} (hfree : Key.isReserved tag = false) (next : Key)
    (links : Links) : s.linkAll ((tag, next) :: links) = (s.adding tag (.link next)).linkAll links := by
  have hgrant : (s.store.alloc { owner := none, behaviour := .routine tag (.link next) }).2.Grants
      (s.store.alloc { owner := none, behaviour := .routine tag (.link next) }).1 :=
    ⟨hfree, Store.owner?_alloc_self _ _⟩
  rw [linkAll, List.map_cons, equip]
  simp only [answer, attach_of_grants (s := { s with store := _ }) hgrant]
  rfl

theorem Wired.adding {s : Site ρ} {links : Links} (wired : s.Wired links) {tag : Key}
    (hfree : Key.isReserved tag = false) (next : Key) :
    (s.adding tag (.link next)).Wired (links ++ [(tag, next)]) := by
  let cell : Cell ρ := { owner := none, behaviour := .routine tag (.link next) }
  have howner := s.store.owner?_alloc_self cell
  have hextends : s.store.Extends (s.adding tag (.link next)).store :=
    (s.store.extends_alloc cell).trans (Store.extends_setOwner howner _)
  refine ⟨?_, fun {t n} hnext => ?_, fun t ht => ?_⟩
  · have hmade : Sound { s with store := (s.store.alloc cell).2 } :=
      wired.sound.grows (s.store.grows_alloc cell) rfl rfl rfl
    exact hmade.attached (s.store.knows_alloc cell) howner
  · rw [Links.next?_append_singleton] at hnext
    split at hnext
    · rename_i heq
      subst heq
      obtain rfl := Option.some.inj hnext
      refine ⟨(s.store.alloc cell).1, (Table.get?_insert ..).trans (if_pos rfl), ?_⟩
      exact (Store.behaviour?_setOwner ..).trans
        (by rw [Store.behaviour?, Store.cell?_alloc_self, Option.map_some])
    · rename_i hne
      obtain ⟨h, hh, hb⟩ := wired.linked hnext
      exact ⟨h, ((Table.get?_insert ..).trans (if_neg hne)).trans hh, hextends.behaves hb⟩
  · rw [Links.tags, List.map_append, List.mem_append, List.map_singleton, List.mem_singleton] at ht
    rcases ht with ht | rfl
    · exact wired.free t ht
    · exact hfree

theorem wired_linkAll {s : Site ρ} {before : Links} (wired : s.Wired before) {links : Links}
    (hfree : ∀ tag ∈ links.tags, Key.isReserved tag = false) :
    (s.linkAll links).Wired (before ++ links) := by
  induction links generalizing s before with
  | nil => rwa [List.append_nil]
  | cons link links ih =>
    obtain ⟨tag, next⟩ := link
    obtain ⟨htag, hrest⟩ := List.forall_mem_cons.mp hfree
    rw [linkAll_cons s htag, List.append_cons]
    exact ih (wired.adding htag next) hrest

theorem contains_linkAll (s : Site ρ) {links : Links}
    (hfree : ∀ tag ∈ links.tags, Key.isReserved tag = false) (key : Key) :
    (s.linkAll links).machine.table.contains key = true ↔
      key ∈ links.tags ∨ s.machine.table.contains key = true := by
  induction links generalizing s with
  | nil => simp [linkAll, Links.tags, equip]
  | cons link links ih =>
    obtain ⟨tag, next⟩ := link
    obtain ⟨htag, hrest⟩ := List.forall_mem_cons.mp hfree
    have hcons : key ∈ Links.tags ((tag, next) :: links) ↔ key = tag ∨ key ∈ Links.tags links :=
      List.mem_cons
    rw [linkAll_cons s htag, ih _ hrest, contains_adding, hcons, or_left_comm, or_assoc]

/-- Adding links concerns the table and the store only. -/
theorem linkAll_eq (s : Site ρ) {links : Links}
    (hfree : ∀ tag ∈ links.tags, Key.isReserved tag = false) :
    s.linkAll links =
      { s with
        store := (s.linkAll links).store
        machine := { s.machine with table := (s.linkAll links).machine.table } } := by
  induction links generalizing s with
  | nil => rfl
  | cons link links ih =>
    obtain ⟨tag, next⟩ := link
    obtain ⟨htag, hrest⟩ := List.forall_mem_cons.mp hfree
    rw [linkAll_cons s htag]
    exact ih (s.adding tag (.link next)) hrest

end Site

end StateEngine
