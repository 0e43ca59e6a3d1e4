import Mathlib.Logic.Function.Basic
import Mathlib.Logic.Relation
import StateEngine.Proofs.Ownership

/-!
# Worlds of machines

Any number of machines share one store of states. They are made one after another, by hand or by
builders, and run in any order; each may be given states that others have made, and be refused those
that others own. An identity is given out once, also to a machine that is lost while it is built.
-/

namespace StateEngine

variable {ρ : Type}

/-- A machine of a world: how it was constructed and how far its programs have come. The store that
its run remembers is out of date as soon as another machine moves. -/
structure Member (ρ : Type) where
  made : Machine
  run : Execution ρ

def Member.machine (member : Member ρ) : Machine := member.run.site.machine

structure World (ρ : Type) where
  store : Store ρ
  member? : MachineId → Option (Member ρ)
  /-- The identities given out so far, whatever has become of the machines. -/
  issued : List MachineId

namespace World

def empty : World ρ := { store := .empty, member? := fun _ => none, issued := [] }

/-- What surrounds a member at this moment. -/
def site (w : World ρ) (member : Member ρ) : Site ρ := { member.run.site with store := w.store }

/-- A member's run as it goes on in this world, with whatever handles are at hand by then. -/
def resume (w : World ρ) (member : Member ρ) (shelf : Table Handle) (clock : Timestamp) :
    Execution ρ :=
  { member.run with site := { w.site member with shelf, clock } }

/-- What can happen in a world. -/
inductive Event (w : World ρ) : World ρ → Prop where
  /-- States are made that nobody owns yet, and what routines have captured changes. -/
  | stocked {store : Store ρ} : w.store.Grows store →
      (∀ h, store.owner? h = w.store.owner? h) → Event w { w with store }
  | created {id : MachineId} (kind : MachineKind) (clock : Timestamp) (p : Program ρ) :
      id ∉ w.issued → Event w
        { store := (Machine.create w.store id kind).2
          member? := Function.update w.member? id (some
            { made := (Machine.create w.store id kind).1
              run := .start
                { machine := (Machine.create w.store id kind).1
                  store := (Machine.create w.store id kind).2
                  shelf := .empty
                  journal := []
                  clock } p })
          issued := id :: w.issued }
  | built {id : MachineId} {b : Builder} {clock : Timestamp} {m : Machine} {store : Store ρ}
      (p : Program ρ) : id ∉ w.issued → (∀ h ∈ b.states, w.store.Knows h) →
      b.build w.store id clock = (.ok m, store) → Event w
        { store
          member? := Function.update w.member? id (some
            { made := (Machine.create w.store id b.kind).1
              run := .start { machine := m, store, shelf := .empty, journal := [], clock } p })
          issued := id :: w.issued }
  /-- A build fails; the states that its machine had taken are lost with it. -/
  | lost {id : MachineId} {b : Builder} {clock : Timestamp} {e : BuildError} {store : Store ρ} :
      id ∉ w.issued → (∀ h ∈ b.states, w.store.Knows h) →
      b.build w.store id clock = (.error e, store) →
      Event w { w with store, issued := id :: w.issued }
  /-- The program of a member makes one step. -/
  | moved {id : MachineId} {member : Member ρ} {e : Execution ρ} (shelf : Table Handle)
      (clock : Timestamp) : w.member? id = some member → (w.resume member shelf clock).Honest →
      (w.resume member shelf clock).next = .inl e → Event w
        { w with
          store := e.site.store
          member? := Function.update w.member? id (some { member with run := e }) }
  /-- A member whose program has ended is given another one. -/
  | again {id : MachineId} {member : Member ρ} {outcome : Outcome ρ} (p : Program ρ) :
      w.member? id = some member → member.run.next = .inr outcome → Event w
        { w with
          member? := Function.update w.member? id
            (some { member with run := .start member.run.site p }) }
  | dropped {id : MachineId} {member : Member ρ} : w.member? id = some member →
      Event w { w with member? := Function.update w.member? id none }

def Reachable (w : World ρ) : Prop := Relation.ReflTransGen Event empty w

/-- Every machine of a world has what it should, and nobody goes by an identity that was not given
out. -/
structure Sound (w : World ρ) : Prop where
  member : ∀ id member, w.member? id = some member →
    id ∈ w.issued ∧ member.made.id = id ∧ (w.site member).Intact member.made
  issued : ∀ h id, w.store.owner? h = some id → id ∈ w.issued

namespace Sound

variable {w : World ρ}

theorem not_owned (sound : w.Sound) {id : MachineId} (hid : id ∉ w.issued) (h : Handle) :
    w.store.owner? h ≠ some id := fun ho => hid (sound.issued h id ho)

/-- A machine stays whole through whatever takes no states for it. -/
theorem stays (sound : w.Sound) {id : MachineId} {member : Member ρ} {store : Store ρ}
    (hm : w.member? id = some member) (hg : w.store.Grows store)
    (hkept : ∀ h, store.owner? h = some id → w.store.owner? h = some id) :
    Site.Intact member.made { member.run.site with store } := by
  obtain ⟨-, hid, hintact⟩ := sound.member id member hm
  have hself : (w.site member).machine.id = id := hintact.id_eq.trans hid
  exact hintact.grows hg (by rw [hself]; exact hkept) rfl rfl rfl

/-- When states are taken for one machine alone, that machine is the only one to look after. -/
theorem update (sound : w.Sound) {id : MachineId} {store : Store ρ} {issued : List MachineId}
    {after : Option (Member ρ)} (hg : w.store.Grows store) (ht : w.store.TakenBy store id)
    (hsub : w.issued ⊆ issued) (hid : id ∈ issued)
    (hafter : ∀ member, after = some member → member.made.id = id ∧
      Site.Intact member.made { member.run.site with store }) :
    Sound { store, member? := Function.update w.member? id after, issued } where
  member other member hm := by
    simp only at hm
    by_cases heq : other = id
    · subst heq
      rw [Function.update_self] at hm
      exact ⟨hid, hafter member hm⟩
    · rw [Function.update_of_ne heq] at hm
      obtain ⟨hother, hmade, -⟩ := sound.member other member hm
      exact ⟨hsub hother, hmade,
        sound.stays hm hg fun h ho => (ht h other ho).resolve_right heq⟩
  issued h other ho := by
    rcases ht h other ho with ho | rfl
    · exact hsub (sound.issued h other ho)
    · exact hid

theorem event {w' : World ρ} (sound : w.Sound) (event : w.Event w') : w'.Sound := by
  cases event with
  | stocked hg ho =>
    refine ⟨fun id member hm => ?_, fun h id howned => sound.issued h id (ho h ▸ howned)⟩
    obtain ⟨hid, hmade, -⟩ := sound.member id member hm
    exact ⟨hid, hmade, sound.stays hm hg fun h howned => ho h ▸ howned⟩
  | @created id kind clock p hid =>
    refine sound.update (Machine.grows_create _ _ _) (.create _ _ _) (List.subset_cons_self _ _)
      List.mem_cons_self fun member hm => ?_
    cases hm
    exact ⟨rfl, .create (sound.not_owned hid) none _ [] rfl rfl⟩
  | @built id b clock m store p hid known hbuild =>
    have hbuilds := b.build_builds w.store id clock
    rw [hbuild] at hbuilds
    obtain ⟨hg, ht⟩ := hbuilds.grows known
    refine sound.update hg ht (List.subset_cons_self _ _) List.mem_cons_self fun member hm => ?_
    cases hm
    exact ⟨rfl, Builder.intact_of_build known (sound.not_owned hid) hbuild _ _ _⟩
  | @lost id b clock e store hid known hbuild =>
    have hbuilds := b.build_builds w.store id clock
    rw [hbuild] at hbuilds
    obtain ⟨hg, ht⟩ := hbuilds.grows known
    have hnone : w.member? id = none := by
      cases hm : w.member? id with
      | none => rfl
      | some member => exact absurd (sound.member id member hm).1 hid
    have hsame : Sound { store, member? := Function.update w.member? id none,
                         issued := id :: w.issued } :=
      sound.update hg ht (List.subset_cons_self id w.issued) List.mem_cons_self
        fun _ hm => absurd hm (Option.some_ne_none _).symm
    rwa [← hnone, Function.update_eq_self] at hsame
  | @moved id member e shelf clock hm honest next =>
    obtain ⟨hid, hmade, hintact⟩ := sound.member id member hm
    have deed := Execution.next_deed next
    have hresumed : (w.resume member shelf clock).site.Intact member.made :=
      hintact.grows (.refl _) (fun _ ho => ho) rfl rfl rfl
    have hself : (w.resume member shelf clock).site.machine.id = id := hintact.id_eq.trans hmade
    refine sound.update deed.grows (hself ▸ deed.taken) (List.Subset.refl _) hid fun member' hm' => ?_
    cases hm'
    exact ⟨hmade, hresumed.deed honest deed⟩
  | @again id member outcome p hm next =>
    obtain ⟨hid, hmade, hintact⟩ := sound.member id member hm
    refine sound.update (.refl _) (.refl _ _) (List.Subset.refl _) hid fun member' hm' => ?_
    cases hm'
    exact ⟨hmade, hintact⟩
  | @dropped id member hm =>
    exact sound.update (.refl _) (.refl _ _) (List.Subset.refl _) (sound.member id member hm).1
      fun _ hnone => absurd hnone (Option.some_ne_none _).symm

end Sound

theorem sound_empty : (empty : World ρ).Sound where
  member _ _ h := nomatch h
  issued h id ho := by simp [empty, Store.owner?, Store.cell?, Store.empty] at ho

theorem Reachable.sound {w : World ρ} (h : w.Reachable) : w.Sound := by
  induction h with
  | refl => exact sound_empty
  | tail _ event ih => exact ih.event event

/-- What a world has in common with one that it came from. -/
structure Since (w w' : World ρ) : Prop where
  grows : w.store.Grows w'.store
  issued : w.issued ⊆ w'.issued
  /-- An identity stands for the same machine as long as there is one. -/
  member : ∀ id member', id ∈ w.issued → w'.member? id = some member' →
    ∃ member, w.member? id = some member ∧ member'.made = member.made ∧
      ∀ key, member.machine.table.contains key = true →
        member'.machine.table.contains key = true

namespace Since

theorem refl (w : World ρ) : w.Since w where
  grows := .refl _
  issued := List.Subset.refl _
  member _ member' _ hm := ⟨member', hm, rfl, fun _ hk => hk⟩

theorem trans {a b c : World ρ} (hab : a.Since b) (hbc : b.Since c) : a.Since c where
  grows := hab.grows.trans hbc.grows
  issued := List.Subset.trans hab.issued hbc.issued
  member id last hid hlast := by
    obtain ⟨between, hbetween, hmade, hkeys⟩ := hbc.member id last (hab.issued hid) hlast
    obtain ⟨first, hfirst, hmade', hkeys'⟩ := hab.member id between hid hbetween
    exact ⟨first, hfirst, hmade.trans hmade', fun key hk => hkeys key (hkeys' key hk)⟩

theorem update {w : World ρ} {id : MachineId} {store : Store ρ} {issued : List MachineId}
    {after : Option (Member ρ)} (hg : w.store.Grows store) (hsub : w.issued ⊆ issued)
    (hafter : id ∈ w.issued → ∀ member', after = some member' →
      ∃ member, w.member? id = some member ∧ member'.made = member.made ∧
        ∀ key, member.machine.table.contains key = true →
          member'.machine.table.contains key = true) :
    w.Since { store, member? := Function.update w.member? id after, issued } where
  grows := hg
  issued := hsub
  member other member' hother hm := by
    simp only at hm
    by_cases heq : other = id
    · subst heq
      rw [Function.update_self] at hm
      exact hafter hother member' hm
    · rw [Function.update_of_ne heq] at hm
      exact ⟨member', hm, rfl, fun _ hk => hk⟩

theorem event {w w' : World ρ} (event : w.Event w') : w.Since w' := by
  cases event with
  | stocked hg => exact { refl w with grows := hg }
  | created kind clock p hid =>
    exact update (Machine.grows_create _ _ _) (List.subset_cons_self _ _) fun h => absurd h hid
  | @built id b clock m store p hid known hbuild =>
    have hbuilds := b.build_builds w.store id clock
    rw [hbuild] at hbuilds
    exact update (hbuilds.grows known).1 (List.subset_cons_self _ _) fun h => absurd h hid
  | @lost id b clock e store hid known hbuild =>
    have hbuilds := b.build_builds w.store id clock
    rw [hbuild] at hbuilds
    exact { refl w with
      grows := (hbuilds.grows known).1
      issued := List.subset_cons_self _ _ }
  | @moved id member e shelf clock hm honest next =>
    have deed := Execution.next_deed next
    refine update deed.grows (List.Subset.refl _) fun _ member' hm' => ?_
    cases hm'
    exact ⟨member, hm, rfl, fun key hk => deed.contains hk⟩
  | @again id member outcome p hm next =>
    refine update (.refl _) (List.Subset.refl _) fun _ member' hm' => ?_
    cases hm'
    exact ⟨member, hm, rfl, fun key hk => hk⟩
  | dropped hm =>
    exact update (.refl _) (List.Subset.refl _) fun _ _ hnone =>
      absurd hnone (Option.some_ne_none _).symm

end Since

theorem since_of_events {w w' : World ρ} (events : Relation.ReflTransGen Event w w') :
    w.Since w' := by
  induction events with
  | refl => exact .refl w
  | tail _ event ih => exact ih.trans (.event event)

/-- Whatever happens in a world, a state keeps the owner it once has. Each machine lists states of its
own only, each under its key, has an entry under the key of every state that it owns, stands in one
of these, and never loses a key or one of the constants that it was made with. No state is listed by
two machines. A machine that is refused a state is left as it was, and is told who owned the state
first. -/
theorem ownership_is_kept {w w' : World ρ} (reachable : w.Reachable)
    (events : Relation.ReflTransGen Event w w') :
    (∀ h id, w.store.owner? h = some id → w'.store.owner? h = some id) ∧
    (∀ id member, w'.member? id = some member →
      member.machine.id = id ∧
      (∀ key h, member.machine.table.get? key = some h →
        h.key = key ∧ w'.store.owner? h = some id) ∧
      (∀ h, w'.store.Knows h → w'.store.owner? h = some id →
        member.machine.table.contains h.key = true) ∧
      w'.store.owner? member.machine.current = some id ∧
      (∀ key, Key.isReserved key = true → ∃ h, member.made.table.get? key = some h ∧
        member.machine.table.get? key = some h ∧
        w'.store.behaviour? h = some (.constant key)) ∧
      ∀ before, w.member? id = some before → member.made = before.made ∧
        ∀ key, before.machine.table.contains key = true →
          member.machine.table.contains key = true) ∧
    (∀ id₁ id₂ member₁ member₂ key₁ key₂ h, w'.member? id₁ = some member₁ →
      w'.member? id₂ = some member₂ → member₁.machine.table.get? key₁ = some h →
      member₂.machine.table.get? key₂ = some h → id₁ = id₂) ∧
    ∀ id member h e, w'.member? id = some member → (w'.site member).attach h = .error e →
      (w'.site member).answer (.attach h) = (.error e, w'.site member) ∧
      ((Key.isReserved h.key = true ∧ e = .reservedKey h.key) ∨
        (Key.isReserved h.key = false ∧ ∃ owner, w'.store.owner? h = some owner ∧
          e = .alreadyBound h.key owner ∧
          ∀ first, w.store.owner? h = some first → first = owner)) := by
  have since := since_of_events events
  have sound : w.Sound := reachable.sound
  have sound' : w'.Sound := Reachable.sound (reachable.trans events)
  refine ⟨fun h id ho => since.grows.owner? ho, fun id member hm => ?_, ?_, ?_⟩
  · obtain ⟨-, hmade, hintact⟩ := sound'.member id member hm
    have hid : member.machine.id = id := hintact.id_eq.trans hmade
    refine ⟨hid, fun key h hk => ?_, fun h hk ho => ?_, ?_, hintact.constants, fun before hb => ?_⟩
    · obtain ⟨hkey, ho, -⟩ := hintact.sound.lists key h hk
      exact ⟨hkey, hid ▸ ho⟩
    · exact hintact.covers h hk (ho.trans (congrArg some hid.symm))
    · exact hid ▸ hintact.sound.owns
    · obtain ⟨before', hb', hmade, hkeys⟩ :=
        since.member id member (sound.member id before hb).1 hm
      rw [hb, Option.some.injEq] at hb'
      subst hb'
      exact ⟨hmade, hkeys⟩
  · intro id₁ id₂ member₁ member₂ key₁ key₂ h hm₁ hm₂ hk₁ hk₂
    obtain ⟨-, hmade₁, hintact₁⟩ := sound'.member id₁ member₁ hm₁
    obtain ⟨-, hmade₂, hintact₂⟩ := sound'.member id₂ member₂ hm₂
    have ho₁ := (hintact₁.sound.lists key₁ h hk₁).2.1
    have ho₂ := (hintact₂.sound.lists key₂ h hk₂).2.1
    rw [hintact₁.id_eq, hmade₁] at ho₁
    rw [hintact₂.id_eq, hmade₂] at ho₂
    exact Option.some.inj (ho₁.symm.trans ho₂)
  · intro id member h e hm he
    refine ⟨by simp only [Site.answer, he], ?_⟩
    rcases Site.attach_eq_error_iff.mp he with hreserved | ⟨hfree, owner, ho, heq⟩
    · exact .inl hreserved
    · exact .inr ⟨hfree, owner, ho, heq, fun first hfirst =>
        Option.some.inj ((since.grows.owner? hfirst).symm.trans ho)⟩

/-- A machine takes a state, and a second one that is made afterwards is refused it. -/
theorem ownership_is_kept_from_latecomer :
    ∃ (w w' : World Unit) (member : Member Unit) (h : Handle), w.Reachable ∧
      Relation.ReflTransGen Event w w' ∧ w.store.owner? h = some ⟨0⟩ ∧
      w'.member? ⟨1⟩ = some member ∧ w'.store.owner? h = some ⟨0⟩ ∧
      (w'.site member).answer (.attach h) = (.error (.alreadyBound "A" ⟨0⟩), w'.site member) := by
  let h : Handle := ⟨0, "A"⟩
  let p : Program Unit := .perform (.attach h) fun _ => .done ()
  let made : Store Unit :=
    (Store.empty.alloc { owner := none, behaviour := .routine "A" (.done ()) }).2
  let start : Execution Unit := .start
    { machine := (Machine.create made ⟨0⟩ .flat).1
      store := (Machine.create made ⟨0⟩ .flat).2
      shelf := .empty
      journal := []
      clock := .epoch } p
  obtain ⟨e, hnext, howner⟩ : ∃ e : Execution Unit, start.next = .inl e ∧
      e.site.store.owner? h = some ⟨0⟩ := ⟨_, rfl, rfl⟩
  let first : Member Unit := { made := (Machine.create made ⟨0⟩ .flat).1, run := start }
  let w₁ : World Unit := { store := made, member? := fun _ => none, issued := [] }
  let w₂ : World Unit :=
    { store := (Machine.create made ⟨0⟩ .flat).2
      member? := Function.update w₁.member? ⟨0⟩ (some first)
      issued := [⟨0⟩] }
  let w₃ : World Unit :=
    { store := e.site.store
      member? := Function.update w₂.member? ⟨0⟩ (some { first with run := e })
      issued := [⟨0⟩] }
  let latecomer : Member Unit :=
    { made := (Machine.create e.site.store ⟨1⟩ .flat).1
      run := .start
        { machine := (Machine.create e.site.store ⟨1⟩ .flat).1
          store := (Machine.create e.site.store ⟨1⟩ .flat).2
          shelf := .empty
          journal := []
          clock := .epoch } p }
  let w₄ : World Unit :=
    { store := (Machine.create e.site.store ⟨1⟩ .flat).2
      member? := Function.update w₃.member? ⟨1⟩ (some latecomer)
      issued := [⟨1⟩, ⟨0⟩] }
  have stocked : Event empty w₁ := by
    refine .stocked (Store.grows_alloc _ _) fun g => ?_
    rw [Store.owner?_alloc]
    split <;> rfl
  have created : Event w₁ w₂ := .created .flat .epoch p List.not_mem_nil
  have hfirst : w₂.member? ⟨0⟩ = some first := rfl
  have honest : (w₂.resume first .empty .epoch).Honest := ⟨_, rfl, rfl⟩
  have moved : Event w₂ w₃ := .moved .empty .epoch hfirst honest hnext
  have unused : (⟨1⟩ : MachineId) ∉ w₃.issued :=
    show (⟨1⟩ : MachineId) ∉ [(⟨0⟩ : MachineId)] by decide
  have came : Event w₃ w₄ := .created .flat .epoch p unused
  have reachable : w₃.Reachable := ((Relation.ReflTransGen.single stocked).tail created).tail moved
  obtain ⟨hkept, -, -, hrefused⟩ := ownership_is_kept reachable (.single came)
  have howner₄ := hkept h ⟨0⟩ howner
  have hrefusal : (w₄.site latecomer).attach h = .error (.alreadyBound "A" ⟨0⟩) :=
    Site.attach_eq_error_iff.mpr (.inr ⟨by decide, ⟨0⟩, howner₄, rfl⟩)
  have hm : w₄.member? ⟨1⟩ = some latecomer := rfl
  obtain ⟨hanswer, -⟩ := hrefused ⟨1⟩ latecomer h _ hm hrefusal
  exact ⟨w₃, w₄, latecomer, h, reachable, .single came, howner, hm, howner₄, hanswer⟩

end World

end StateEngine
