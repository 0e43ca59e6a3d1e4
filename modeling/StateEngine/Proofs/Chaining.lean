import Mathlib.Data.List.Nodup
import StateEngine.Proofs.Acceptance
import StateEngine.Proofs.Linking

/-!
# Chains of states

A chain links each of its keys to the one that follows and the last to completion. A build with a
chain gives a machine that walks from any of the keys through those behind it and is done then, as
long as the keys are distinct and none of them is reserved.
-/

namespace StateEngine

variable {ρ : Type}

namespace Links

/-- Where no tag is linked twice, every link counts. -/
theorem next?_eq_some_iff {links : Links} (hnodup : links.tags.Nodup) {tag next : Key} :
    links.next? tag = some next ↔ (tag, next) ∈ links := by
  refine ⟨mem_of_next?, fun hlink => ?_⟩
  obtain ⟨next', hnext'⟩ := exists_next?_of_mem (List.mem_map_of_mem hlink)
  have hsame := List.inj_on_of_nodup_map hnodup hlink (mem_of_next? hnext') rfl
  rw [hnext', (Prod.mk.inj hsame).2]

end Links

namespace Builder

theorem tags_chainLinks (keys : List Key) : Links.tags (chainLinks keys) = keys := by
  fun_induction chainLinks keys with
  | case1 => rfl
  | case2 last => rfl
  | case3 key next rest ih => exact congrArg (key :: ·) ih

theorem chainLinks_subset (before : List Key) {keys : List Key} (hne : keys ≠ []) :
    chainLinks keys ⊆ chainLinks (before ++ keys) := by
  induction before with
  | nil => exact List.Subset.refl _
  | cons key before ih =>
    obtain ⟨next, rest, heq⟩ :=
      List.exists_cons_of_ne_nil (List.append_ne_nil_of_right_ne_nil before hne)
    rw [List.cons_append, heq, chainLinks, ← heq]
    exact List.subset_cons_of_subset _ ih

/-- The links of a chain lead from a key through the others behind it to completion. -/
theorem walks_of_chainLinks_subset {links : Links} (hnodup : links.tags.Nodup) {key : Key}
    {rest : List Key} (hsub : chainLinks (key :: rest) ⊆ links) :
    links.Walks key (key :: rest) Key.done := by
  induction rest generalizing key with
  | nil => exact .on ((Links.next?_eq_some_iff hnodup).mpr (hsub List.mem_cons_self)) .here
  | cons next rest ih =>
    obtain ⟨hlink, hrest⟩ := List.cons_subset.mp hsub
    exact .on ((Links.next?_eq_some_iff hnodup).mpr hlink) (ih hrest)

theorem walks_chainLinks {keys : List Key} (hnodup : keys.Nodup) {i : Nat} (hi : i < keys.length) :
    Links.Walks (chainLinks keys) keys[i] (keys.drop i) Key.done := by
  have hdrop := List.drop_eq_getElem_cons hi
  rw [hdrop]
  refine walks_of_chainLinks_subset ((tags_chainLinks keys).symm ▸ hnodup) ?_
  have hsub := chainLinks_subset (keys.take i) (List.ne_nil_of_length_pos (l := keys.drop i)
    (by rw [List.length_drop]; omega))
  rwa [List.take_append_drop, hdrop] at hsub

end Builder

/-! ## Adding a chain to a builder -/

namespace Builder

/-- A machine has the settings of a builder and its states. -/
structure Configures (b : Builder) (m : Machine) : Prop where
  kind : m.kind = b.kind
  given : m.given = b.name
  observers : m.observers = b.observers
  limit : m.history.limit = b.historyLimit
  states : ∀ h ∈ b.states, m.table.get? h.key = some h

theorem configures_midway {b : Builder} (store : Store ρ) (distinct : b.keys.Nodup)
    (id : MachineId) (time : Timestamp) :
    b.Configures (b.midway store id time b.states).machine := by
  have heq := (b.outset store id time).takingAll_eq b.states
  refine ⟨?_, ?_, ?_, ?_, fun h hh => Site.get?_takingAll_of_mem distinct hh⟩
  all_goals
    rw [midway, heq]
    rfl

/-- A machine that has only taken states is as it was made. -/
theorem midway_rests (b : Builder) (store : Store ρ) (id : MachineId) (time : Timestamp)
    (taken : List Handle) :
    (b.midway store id time taken).machine.progressed = false ∧
      (b.midway store id time taken).machine.steps = 0 ∧
      (b.midway store id time taken).machine.history = .withLimit b.historyLimit := by
  rw [midway, (b.outset store id time).takingAll_eq taken]
  exact ⟨rfl, rfl, rfl⟩

theorem Configures.enter {b : Builder} {m : Machine} (configures : b.Configures m) (h : Handle)
    (now : Timestamp) : b.Configures (m.enter h now) :=
  ⟨configures.kind, configures.given, configures.observers,
    (History.limit_record ..).trans configures.limit, configures.states⟩

/-- The builder with further states. -/
def extended (b : Builder) (made : List Handle) : Builder := { b with states := b.states ++ made }

theorem Configures.of_extended {b : Builder} {made : List Handle} {m : Machine}
    (configures : (b.extended made).Configures m) : b.Configures m :=
  ⟨configures.kind, configures.given, configures.observers, configures.limit,
    fun h hh => configures.states h (List.mem_append_left made hh)⟩

end Builder

/-- The states are new ones for the links, which no machine has taken, and nothing else has changed. -/
structure Store.Gains [Inhabited ρ] (before after : Store ρ) (links : Links) (made : List Handle) :
    Prop where
  kept : before.Extends after
  owners : ∀ h, before.Knows h → after.owner? h = before.owner? h
  keys : made.map Handle.key = links.tags
  offered : ∀ h ∈ made, after.Knows h ∧ after.owner? h = none
  linked : ∀ link ∈ links, ∃ h ∈ made,
    after.behaviour? h = some (.routine link.1 (.link link.2))

section
variable [Inhabited ρ]

theorem Store.Gains.nil (store : Store ρ) : store.Gains store [] [] where
  kept := .refl store
  owners _ _ := rfl
  keys := rfl
  offered := nofun
  linked := nofun

theorem Store.Gains.cons {store after : Store ρ} {tag next : Key} {links : Links}
    {made : List Handle}
    (gains : (store.alloc { owner := none, behaviour := .routine tag (.link next) }).2.Gains
      after links made) :
    store.Gains after ((tag, next) :: links)
      ((store.alloc { owner := none, behaviour := .routine tag (.link next) }).1 :: made) := by
  let cell : Cell ρ := { owner := none, behaviour := .routine tag (.link next) }
  have hextends := store.extends_alloc cell
  have hself := store.knows_alloc cell
  refine ⟨hextends.trans gains.kept, fun h hk => ?_, congrArg (tag :: ·) gains.keys, ?_, ?_⟩
  · rw [gains.owners h (hextends.grows.knows hk), Store.owner?_alloc_of_knows hk]
  · refine List.forall_mem_cons.mpr ⟨⟨gains.kept.grows.knows hself, ?_⟩, gains.offered⟩
    rw [gains.owners _ hself, store.owner?_alloc_self]
  · refine List.forall_mem_cons.mpr ⟨⟨_, List.mem_cons_self, gains.kept.behaves ?_⟩, ?_⟩
    · rw [Store.behaviour?, store.cell?_alloc_self, Option.map_some]
    · intro link hlink
      obtain ⟨h, hh, hb⟩ := gains.linked link hlink
      exact ⟨h, List.mem_cons_of_mem _ hh, hb⟩

namespace Builder

theorem exists_gains_of_links (links : Links) (b : Builder) (store : Store ρ) :
    ∃ made after, links.foldl (fun (b, store) (key, next) => b.link store key next) (b, store) =
        (b.extended made, after) ∧ store.Gains after links made := by
  induction links generalizing b store with
  | nil => exact ⟨[], store, by rw [extended, List.append_nil]; rfl, .nil store⟩
  | cons link links ih =>
    obtain ⟨tag, next⟩ := link
    obtain ⟨made, after, heq, gains⟩ := ih (b.link store tag next).1 (b.link store tag next).2
    refine ⟨_ :: made, after, heq.trans ?_, gains.cons⟩
    rw [extended, extended, List.append_cons]
    rfl

/-- A chain adds a new state for each of its links to a builder, and leaves the rest as it is. -/
theorem exists_gains (b : Builder) (store : Store ρ) (keys : List Key) :
    ∃ made after, b.chain store keys = (b.extended made, after) ∧
      store.Gains after (chainLinks keys) made :=
  exists_gains_of_links (chainLinks keys) b store

section
variable {b : Builder} {store : Store ρ} (known : ∀ h ∈ b.states, store.Knows h)
  (distinct : b.keys.Nodup) (id : MachineId) (time : Timestamp)
include known distinct

theorem wired_midway (granted : ∀ h ∈ b.states, store.Grants h) {links : Links}
    (linked : ∀ link ∈ links, ∃ h ∈ b.states,
      store.behaviour? h = some (.routine link.1 (.link link.2)))
    (free : ∀ tag ∈ links.tags, Key.isReserved tag = false) :
    (b.midway store id time b.states).Wired links := by
  refine ⟨sound_midway known distinct granted id time, fun {tag next} hnext => ?_, free⟩
  obtain ⟨h, hh, hb⟩ := linked _ (Links.mem_of_next? hnext)
  obtain ⟨b', hb', hkey⟩ := known h hh
  obtain rfl := Option.some.inj (hb.symm.trans hb')
  refine ⟨h, hkey ▸ Site.get?_takingAll_of_mem distinct hh, ?_⟩
  exact (Site.behaviour?_takingAll _ _ h).trans
    ((Machine.extends_create store id b.kind).behaves hb)

end

section
variable {b : Builder} {store after : Store ρ} {keys : List Key} {made : List Handle}
  (gains : store.Gains after (chainLinks keys) made)
include gains

theorem keys_extended : (b.extended made).keys = b.keys ++ keys := by
  rw [Builder.keys, extended, List.map_append, gains.keys, tags_chainLinks]
  rfl

variable (known : ∀ h ∈ b.states, store.Knows h)
include known

theorem known_extended : ∀ h ∈ (b.extended made).states, after.Knows h := by
  intro h hh
  rcases List.mem_append.mp hh with hh | hh
  · exact gains.kept.grows.knows (known h hh)
  · exact (gains.offered h hh).1

variable (valid : Builder.Valid { b with initial := none } store)
include valid

theorem free_extended : ∀ h ∈ (b.extended made).states, after.owner? h = none := by
  intro h hh
  rcases List.mem_append.mp hh with hh | hh
  · exact (gains.owners h (known h hh)).trans (valid.granted h hh).2
  · exact (gains.offered h hh).2

variable (new : ∀ key ∈ keys, key ∉ b.keys) (hnodup : keys.Nodup)
include new hnodup

omit known in
theorem distinct_extended : (b.extended made).keys.Nodup := by
  rw [keys_extended gains]
  exact List.nodup_append.mpr ⟨valid.distinct, hnodup,
    fun k hk k' hk' heq => new k' hk' (heq ▸ hk)⟩

/-- A builder with a chain is valid if the keys of the chain are distinct and free. -/
theorem valid_extended (hfree : ∀ key ∈ keys, Key.isReserved key = false)
    (leads : ∀ key, b.initial = some key → key ∈ keys) : (b.extended made).Valid after where
  distinct := distinct_extended gains valid new hnodup
  named := valid.named
  granted h hh := by
    refine ⟨?_, free_extended gains known valid h hh⟩
    rcases List.mem_append.mp hh with hh | hh
    · exact (valid.granted h hh).1
    · exact hfree h.key (tags_chainLinks keys ▸ gains.keys ▸ List.mem_map_of_mem hh)
  leads key hi := by
    have hkey := leads key hi
    refine ⟨.inl ?_, Key.ne_error_of_free (hfree key hkey)⟩
    rw [keys_extended gains]
    exact List.mem_append_right _ hkey

omit [Inhabited ρ] gains known valid new hnodup in
theorem find?_isReserved_of_grants {states : List Handle} (granted : ∀ h ∈ states, store.Grants h) :
    (states.map Handle.key).find? Key.isReserved = none := by
  refine List.find?_eq_none.mpr fun key hkey => ?_
  obtain ⟨h, hh, rfl⟩ := List.mem_map.mp hkey
  rw [(granted h hh).1]
  decide

/-- Where a key of the chain is reserved, the first of these ends the build. -/
theorem fails_extended {key : Key} (hkey : key ∈ keys) (hreserved : Key.isReserved key = true) :
    ∃ first taken, keys.find? Key.isReserved = some first ∧
      (b.extended made).Fails after (.machine (.reservedKey first)) taken := by
  rcases after.grants_all_or_refuses (b.extended made).states with
    hall | ⟨taken, h, rest, e, hstates, htaken, hrefuse⟩
  · obtain ⟨h, hh, rfl⟩ : ∃ h ∈ made, h.key = key :=
      List.mem_map.mp (gains.keys ▸ (tags_chainLinks keys).symm ▸ hkey)
    rw [(hall h (List.mem_append_right _ hh)).1] at hreserved
    cases hreserved
  · have hself : h ∈ (b.extended made).states :=
      hstates ▸ List.mem_append_right _ List.mem_cons_self
    cases hrefuse with
    | bound hfree howner =>
      rw [free_extended gains known valid h hself] at howner
      cases howner
    | reserved hk =>
      refine ⟨h.key, taken, ?_, .refused (distinct_extended gains valid new hnodup)
        valid.named hstates htaken (.reserved hk)⟩
      have hkeys := keys_extended (b := b) gains
      rw [Builder.keys, hstates, List.map_append, List.map_cons] at hkeys
      have hbefore : b.keys.find? Key.isReserved = none := find?_isReserved_of_grants valid.granted
      have hfirst := congrArg (List.find? Key.isReserved) hkeys
      rwa [List.find?_append, find?_isReserved_of_grants htaken, Option.none_or,
        List.find?_cons_of_pos hk, List.find?_append, hbefore, Option.none_or, eq_comm] at hfirst

end

end Builder

namespace Site

/-- A drive to completion invokes the keys one after another, and the history keeps the latest of
the keys that were entered. -/
def Completes (s : Site ρ) (keys : List Key) (limit : Nat) : Prop :=
  ∃ s' log, s.Answers .finish (.ok ()) s' ∧ s'.machine.isDone = true ∧ s.Marches keys s' ∧
    s'.machine.steps = keys.length ∧ s'.machine.history = .keeping limit log ∧
    log.map Record.target = keys ++ [Key.done]

/-- A walk to completion begins at a key that can be entered. -/
theorem Wired.exists_start {s : Site ρ} {links : Links} (wired : s.Wired links) {key : Key}
    {keys : List Key} (walk : links.Walks key keys Key.done) {g : Handle}
    (hg : s.machine.table.get? Key.done = some g) :
    (∃ h, s.machine.table.get? key = some h) ∧ key ≠ Key.error := by
  cases walk with
  | here => exact ⟨⟨g, hg⟩, by decide⟩
  | on hnext =>
    obtain ⟨h, hh, -⟩ := wired.linked hnext
    exact ⟨⟨h, hh⟩, Key.ne_error_of_free (wired.free key (Links.mem_tags_of_next? hnext))⟩

theorem Wired.completes {s₀ s : Site ρ} {links : Links} (wired : s₀.Wired links) {key : Key}
    {keys : List Key} (walk : links.Walks key keys Key.done) {h g : Handle} {limit : Nat}
    (selected : s₀.Selected s h limit) (hh : s₀.machine.table.get? key = some h)
    (hg : s₀.machine.table.get? Key.done = some g) : s.Completes keys limit := by
  obtain ⟨s', there⟩ := wired.travels walk selected.inherits selected.arrives hh hg (by decide)
  obtain ⟨hkey, -⟩ := wired.sound.lists _ _ hg
  have hdone : s'.machine.isDone = true := by
    rw [Machine.isDone, there.arrives.current, hkey]
    decide
  obtain ⟨log, hlog, hpath⟩ := selected.history_eq there.records
  refine ⟨s', log, (there.marches.finishes (.done hdone)).answers, hdone, there.marches, ?_, hlog,
    hkey ▸ hpath⟩
  rw [there.steps, selected.steps, Nat.zero_add]

end Site

namespace Builder

/-- A valid builder with links builds a machine that follows them to completion, from the initial key
or from one that is selected by hand. -/
theorem Valid.follows_links {b : Builder} {store : Store ρ} (valid : b.Valid store)
    (known : ∀ h ∈ b.states, store.Knows h) {links : Links}
    (linked : ∀ link ∈ links, ∃ h ∈ b.states,
      store.behaviour? h = some (.routine link.1 (.link link.2)))
    (free : ∀ tag ∈ links.tags, Key.isReserved tag = false) (id : MachineId) (time : Timestamp) :
    ∃ m after, b.build store id time = (.ok m, after) ∧ b.Configures m ∧
      ∀ key keys, links.Walks key keys Key.done → ∀ shelf journal clock,
        let s : Site ρ := { machine := m, store := after, shelf, journal, clock }
        (b.initial = some key → s.Completes keys b.historyLimit) ∧
        (b.initial = none → ∃ s₁, s.answer (.move .select (.key key)) = (.ok (), s₁) ∧
          s₁.Completes keys b.historyLimit) := by
  obtain ⟨s, -, hinitial, hbuild⟩ := valid.build_eq id time known
  have wired := wired_midway known valid.distinct id time valid.granted linked free
  have configures := configures_midway store valid.distinct id time
  obtain ⟨hprogressed, hsteps, hhistory⟩ := midway_rests b store id time b.states
  obtain ⟨g, hg⟩ := Option.isSome_iff_exists.mp ((b.contains_midway store id time b.states
    Key.done).mpr (.inr (by cases b.kind <;> decide)))
  have hlisted := fun key => (b.contains_midway store id time b.states key).mpr
  generalize b.midway store id time b.states = mid at *
  cases hi : b.initial with
  | none =>
    obtain rfl : mid = s := by
      rw [Builder.enterInitial, hi] at hinitial
      exact congrArg Prod.snd hinitial
    refine ⟨_, _, hbuild, configures, fun key keys walk shelf journal clock => ⟨fun hkey => ?_,
      fun _ => ?_⟩⟩
    · cases hkey
    · obtain ⟨⟨h, hh⟩, hne⟩ := wired.exists_start walk hg
      have wired' : Site.Wired { mid with shelf, journal, clock } links := wired.aside rfl rfl
      obtain ⟨hselect, selected⟩ := wired'.sound.selects hprogressed hsteps hhistory hh hne
      exact ⟨_, congrArg (Site.settle _) hselect, wired'.completes walk selected hh hg⟩
  | some initial =>
    obtain ⟨hmem, hne⟩ := valid.leads initial hi
    obtain ⟨h, hh⟩ := Option.isSome_iff_exists.mp (hlisted initial hmem)
    obtain ⟨hselect, selected⟩ := wired.sound.selects hprogressed hsteps hhistory hh hne
    obtain rfl : mid.entered .select h = s := by
      rw [Builder.enterInitial, hi] at hinitial
      simp only [hselect] at hinitial
      exact congrArg Prod.snd hinitial
    refine ⟨_, _, hbuild, configures.enter h mid.clock, fun key keys walk shelf journal clock =>
      ⟨fun hkey => ?_, fun hnone => ?_⟩⟩
    · cases hkey
      exact wired.completes walk (selected.aside rfl rfl) hh hg
    · cases hnone

/-- A chain of distinct keys that are not reserved is built onto any builder that has none of them,
and keeps the settings. Whichever of its keys is selected, initially or by hand, the drive goes
through the keys behind it to completion. A key that stands twice in the chain ends the build, and
otherwise a reserved one does. -/
theorem chain_walks_through_its_keys {b : Builder} {store : Store ρ} {keys : List Key}
    (known : ∀ h ∈ b.states, store.Knows h)
    (valid : Builder.Valid { b with initial := none } store) (new : ∀ key ∈ keys, key ∉ b.keys)
    (leads : ∀ key, b.initial = some key → key ∈ keys) (id : MachineId) (time : Timestamp) :
    (keys.Nodup → (∀ key ∈ keys, Key.isReserved key = false) →
      ∃ m after, (b.chain store keys).1.build (b.chain store keys).2 id time = (.ok m, after) ∧
        b.Configures m ∧ ∀ i (hi : i < keys.length) shelf journal clock,
          let s : Site ρ := { machine := m, store := after, shelf, journal, clock }
          (b.initial = some keys[i] → s.Completes (keys.drop i) b.historyLimit) ∧
          (b.initial = none → ∃ s₁, s.answer (.move .select (.key keys[i])) = (.ok (), s₁) ∧
            s₁.Completes (keys.drop i) b.historyLimit)) ∧
    (¬ keys.Nodup → ∃ key, FirstRepeated keys key ∧
      ((b.chain store keys).1.build (b.chain store keys).2 id time).1 =
        .error (.duplicateKey key)) ∧
    (keys.Nodup → (∃ key ∈ keys, Key.isReserved key = true) →
      ∃ key, keys.find? Key.isReserved = some key ∧
        ((b.chain store keys).1.build (b.chain store keys).2 id time).1 =
          .error (.machine (.reservedKey key))) := by
  obtain ⟨made, after, hchain, gains⟩ := b.exists_gains store keys
  rw [hchain]
  have hknown := known_extended gains known
  refine ⟨fun hnodup hfree => ?_, fun hrepeated => ?_, fun hnodup ⟨key, hkey, hreserved⟩ => ?_⟩
  · have hvalid := valid_extended gains known valid new hnodup hfree leads
    have htags : Links.tags (chainLinks keys) = keys := tags_chainLinks keys
    have hlinked : ∀ link ∈ chainLinks keys, ∃ h ∈ (b.extended made).states,
        after.behaviour? h = some (.routine link.1 (.link link.2)) := fun link hlink =>
      (gains.linked link hlink).imp fun _ hh => ⟨List.mem_append_right _ hh.1, hh.2⟩
    obtain ⟨m, final, hbuild, configures, hfollows⟩ :=
      hvalid.follows_links hknown hlinked (htags.symm ▸ hfree) id time
    exact ⟨m, final, hbuild, configures.of_extended,
      fun i hi => hfollows _ _ (walks_chainLinks hnodup hi)⟩
  · obtain ⟨key, before, rest, rfl, hbefore, hin⟩ :=
      (nodup_or_firstRepeated keys).resolve_left hrepeated
    refine ⟨key, ⟨before, rest, rfl, hbefore, hin⟩,
      (build_eq_error_iff id time hknown).mpr ⟨[], .repeated ?_⟩⟩
    refine ⟨b.keys ++ before, rest, by rw [keys_extended gains, List.append_assoc], ?_,
      List.mem_append_right _ hin⟩
    exact List.nodup_append.mpr ⟨valid.distinct, hbefore,
      fun k hk k' hk' heq => new k' (List.mem_append_left _ hk') (heq ▸ hk)⟩
  · obtain ⟨first, taken, hfirst, fails⟩ :=
      fails_extended gains known valid new hnodup hkey hreserved
    exact ⟨first, hfirst, (build_eq_error_iff id time hknown).mpr ⟨taken, fails⟩⟩

/-- Begins at the second key of a chain and keeps two records. -/
def halfway : Builder := { Builder.new .stack with initial := some "B", historyLimit := 2 }

/-- From the second of three keys two states are invoked, and the first of the three records is
gone. -/
theorem chain_walks_through_its_keys_halfway :
    ∃ m after, (halfway.chain (.empty : Store Unit) ["A", "B", "C"]).1.build
        (halfway.chain (.empty : Store Unit) ["A", "B", "C"]).2 ⟨0⟩ .epoch = (.ok m, after) ∧
      ({ machine := m, store := after, shelf := .empty, journal := [], clock := .epoch } :
        Site Unit).Completes ["B", "C"] 2 := by
  have valid : Builder.Valid { halfway with initial := none } (.empty : Store Unit) :=
    ⟨.nil, nofun, nofun, nofun⟩
  have known : ∀ h ∈ halfway.states, (.empty : Store Unit).Knows h :=
    fun _ hh => absurd hh List.not_mem_nil
  have hnew : ∀ key ∈ ["A", "B", "C"], key ∉ halfway.keys := fun _ _ => List.not_mem_nil
  obtain ⟨m, after, hbuild, -, hall⟩ := (chain_walks_through_its_keys known valid hnew
    (by rintro key ⟨⟩; decide) ⟨0⟩ .epoch).1 (by decide) (by decide)
  exact ⟨m, after, hbuild, (hall 1 (by decide) .empty [] .epoch).1 rfl⟩

end Builder

end

end StateEngine
