import Mathlib.Data.Option.Defs
import StateEngine.Proofs.Deed

/-!
# Programs without calls

A program that does not call and does not ask for the states that calls go through cannot tell a
stack machine from a flat one. The two machines are led through their moments side by side: at each
they show the same, and the stack keeps the one frame that it began with.
-/

namespace StateEngine

variable {ρ : Type}

/-- The keys that a stack machine lists from the start and a flat one does not. -/
def Key.ofStack : List Key := [Key.pop, Key.iterate, Key.iterateNext]

/-- Two machines that show the same, those keys apart. -/
structure Machine.Resembles (m m' : Machine) : Prop where
  given : m'.given = m.given
  key : m'.current.key = m.current.key
  progressed : m'.progressed = m.progressed
  steps : m'.steps = m.steps
  history : m'.history = m.history
  observers : m'.observers = m.observers
  contains : ∀ key ∉ Key.ofStack, m'.table.contains key = m.table.contains key

/-- Requests that have to do neither with states nor with frames. -/
def Op.IsPlain : Op → Prop
  | .observe _ => True
  | .clearHistory => True
  | .limitHistory _ => True
  | .recordDirectly .. => True
  | .write _ => True
  | _ => False

namespace Program

/-- What is told of the state that an added one replaces. -/
def replacedKey (r : Except MachineError (Option Handle)) : Except MachineError (Option Key) :=
  r.map (Option.map Handle.key)

/-- Makes a state and adds it. -/
def add (key : Key) (body : Program ρ) (next : Except MachineError (Option Key) → Program ρ) :
    Program ρ :=
  .wrap key body fun h => .perform (.attach h) fun r => next (replacedKey r)

/-- Programs that name states by keys other than those, leave frames alone, and see of a machine
what two machines that resemble each other both show. -/
inductive Plain : Program ρ → Prop where
  | done (r : ρ) : Plain (.done r)
  | fail (e : MachineError) : Plain (.fail e)
  | panic (message : String) : Plain (.panic message)
  | inspect {next : Machine → Program ρ} : (∀ m m', m.Resembles m' → next m' = next m) →
      (∀ m, Plain (next m)) → Plain (.perform .inspect next)
  | move (how : Move) {key : Key} {next : Except MachineError Unit → Program ρ} :
      key ∉ Key.ofStack → (∀ r, Plain (next r)) → Plain (.perform (.move how (.key key)) next)
  | perform {op : Op} {next : op.Answer → Program ρ} : op.IsPlain → (∀ r, Plain (next r)) →
      Plain (.perform op next)
  /-- The state that an added one replaces is known by its key only. -/
  | add {key : Key} {body : Program ρ} {next : Except MachineError (Option Key) → Program ρ} :
      key ∉ Key.ofStack → Plain body → (∀ r, Plain (next r)) → Plain (.add key body next)
  | step {next : Except MachineError Bool → Program ρ} : (∀ r, Plain (next r)) →
      Plain (.step next)
  | go {next : Except MachineError Unit → Program ρ} : (∀ r, Plain (next r)) → Plain (.go next)
  | finish {next : Except MachineError Unit → Program ρ} : (∀ r, Plain (next r)) →
      Plain (.finish next)

theorem plain_settle [Inhabited ρ] (r : Except MachineError Unit) :
    (settle r : Program ρ).Plain := by
  cases r with
  | ok => exact .done default
  | error e => exact .fail e

theorem plain_link [Inhabited ρ] {next : Key} (h : next ∉ Key.ofStack) :
    (link next : Program ρ).Plain := .move .transit h plain_settle

end Program

def Behaviour.Plain : Behaviour ρ → Prop
  | .constant _ => True
  | .routine _ body => body.Plain
  | _ => False

namespace Store

/-- Two states of two machines that do the same. -/
structure Pairs (store store' : Store ρ) (owner owner' : MachineId) (h h' : Handle) : Prop where
  key : h'.key = h.key
  owned : store.owner? h = some owner
  owned' : store'.owner? h' = some owner'
  behaves : ∃ b, b.Plain ∧ store.behaviour? h = some b ∧ store'.behaviour? h' = some b

/-- Two states that no machine has taken yet and that do the same. -/
structure Offers (store store' : Store ρ) (h h' : Handle) : Prop where
  key : h'.key = h.key
  free : store.owner? h = none
  free' : store'.owner? h' = none
  behaves : ∃ b, b.Plain ∧ b.key = h.key ∧ store.behaviour? h = some b ∧
    store'.behaviour? h' = some b

/-- Two tables list such states under the keys that both machines may have. -/
def Matches (store store' : Store ρ) (owner owner' : MachineId) (table table' : Table Handle) :
    Prop :=
  ∀ key ∉ Key.ofStack,
    Option.Rel (store.Pairs store' owner owner') (table.get? key) (table'.get? key)

section

variable {store store' after after' : Store ρ} {owner owner' : MachineId} {h h' : Handle}
  {table table' : Table Handle}

theorem Pairs.extended (pair : store.Pairs store' owner owner' h h') (he : store.Extends after)
    (he' : store'.Extends after') : after.Pairs after' owner owner' h h' := by
  obtain ⟨b, hplain, hb, hb'⟩ := pair.behaves
  exact ⟨pair.key, he.grows.owner? pair.owned, he'.grows.owner? pair.owned', b, hplain,
    he.behaves hb, he'.behaves hb'⟩

theorem pairs_alloc (store store' : Store ρ) (owner owner' : MachineId) {b : Behaviour ρ}
    (hb : b.Plain) : Pairs (store.alloc ⟨some owner, b⟩).2 (store'.alloc ⟨some owner', b⟩).2
      owner owner' (store.alloc ⟨some owner, b⟩).1 (store'.alloc ⟨some owner', b⟩).1 where
  key := rfl
  owned := owner?_alloc_self ..
  owned' := owner?_alloc_self ..
  behaves := ⟨b, hb, by rw [behaviour?, cell?_alloc_self, Option.map_some],
    by rw [behaviour?, cell?_alloc_self, Option.map_some]⟩

theorem offers_alloc (store store' : Store ρ) {b : Behaviour ρ} (hb : b.Plain) :
    Offers (store.alloc ⟨none, b⟩).2 (store'.alloc ⟨none, b⟩).2 (store.alloc ⟨none, b⟩).1
      (store'.alloc ⟨none, b⟩).1 where
  key := rfl
  free := owner?_alloc_self ..
  free' := owner?_alloc_self ..
  behaves := ⟨b, hb, rfl, by rw [behaviour?, cell?_alloc_self, Option.map_some],
    by rw [behaviour?, cell?_alloc_self, Option.map_some]⟩

/-- Two machines take the states. -/
theorem Offers.pairs (offer : store.Offers store' h h') (owner owner' : MachineId) :
    (store.setOwner h owner).Pairs (store'.setOwner h' owner') owner owner' h h' := by
  obtain ⟨b, hplain, hkey, hb, hb'⟩ := offer.behaves
  exact ⟨offer.key, owner?_setOwner_self ⟨b, hb, hkey⟩ owner,
    owner?_setOwner_self ⟨b, hb', hkey.trans offer.key.symm⟩ owner', b, hplain,
    (extends_setOwner offer.free owner).behaves hb,
    (extends_setOwner offer.free' owner').behaves hb'⟩

theorem Matches.extended (m : store.Matches store' owner owner' table table')
    (he : store.Extends after) (he' : store'.Extends after') :
    after.Matches after' owner owner' table table' := by
  intro key hkey
  have hrel := m key hkey
  generalize table.get? key = found, table'.get? key = found' at hrel ⊢
  cases hrel with
  | none => exact .none
  | some pair => exact .some (pair.extended he he')

theorem Matches.insert (m : store.Matches store' owner owner' table table')
    (pair : store.Pairs store' owner owner' h h') (key : Key) :
    store.Matches store' owner owner' (table.insert key h) (table'.insert key h') := by
  intro other hother
  rw [Table.get?_insert, Table.get?_insert]
  split
  · exact .some pair
  · exact m other hother

/-- Two machines list the same states still if the one has more of them under its own keys. -/
theorem Matches.install_right {extra : List (Behaviour ρ)}
    (hextra : ∀ b ∈ extra, b.key ∈ Key.ofStack)
    (m : store.Matches store' owner owner' table table')
    (pair : store.Pairs store' owner owner' h h') :
    store.Matches (install owner' extra store' table').1 owner owner' table
        (install owner' extra store' table').2 ∧
      store.Pairs (install owner' extra store' table').1 owner owner' h h' := by
  induction extra generalizing store' table' with
  | nil => exact ⟨m, pair⟩
  | cons b rest ih =>
    obtain ⟨hb, hrest⟩ := List.forall_mem_cons.mp hextra
    have he := extends_alloc store' ⟨some owner', b⟩
    refine ih hrest (fun key hkey => ?_) (pair.extended (.refl store) he)
    rw [Table.get?_insert, if_neg (by rintro rfl; exact hkey hb)]
    exact m.extended (.refl store) he key hkey

theorem Matches.install {shared extra : List (Behaviour ρ)} (hshared : ∀ b ∈ shared, b.Plain)
    (hextra : ∀ b ∈ extra, b.key ∈ Key.ofStack)
    (m : store.Matches store' owner owner' table table')
    (pair : store.Pairs store' owner owner' h h') :
    (install owner shared store table).1.Matches
        (install owner' (shared ++ extra) store' table').1 owner owner'
        (install owner shared store table).2 (install owner' (shared ++ extra) store' table').2 ∧
      (install owner shared store table).1.Pairs
        (install owner' (shared ++ extra) store' table').1 owner owner' h h' := by
  induction shared generalizing store store' table table' with
  | nil => exact m.install_right hextra pair
  | cons b rest ih =>
    obtain ⟨hb, hrest⟩ := List.forall_mem_cons.mp hshared
    have he := extends_alloc store ⟨some owner, b⟩
    have he' := extends_alloc store' ⟨some owner', b⟩
    exact ih hrest ((m.extended he he').insert (pairs_alloc store store' owner owner' hb) b.key)
      (pair.extended he he')

end

/-- The two machines list the same states when they are made. -/
theorem matches_create (store store' : Store ρ) (id id' : MachineId) :
    Matches (Machine.create store id .flat).2 (Machine.create store' id' .stack).2 id id'
        (Machine.create store id .flat).1.table (Machine.create store' id' .stack).1.table ∧
      Pairs (Machine.create store id .flat).2 (Machine.create store' id' .stack).2 id id'
        (Machine.create store id .flat).1.current (Machine.create store' id' .stack).1.current := by
  have pair := pairs_alloc store store' id id' (b := .constant Key.uninitialized) trivial
  have hshared : ∀ b ∈ builtins (ρ := ρ) .flat, b.Plain := by simp [builtins, Behaviour.Plain]
  have hextra : ∀ b ∈ ([.pop, .iterate, .iterateNext] : List (Behaviour ρ)),
      b.key ∈ Key.ofStack := by simp [Behaviour.key, Key.ofStack]
  exact Matches.install hshared hextra (.insert (fun _ _ => .none) pair Key.uninitialized) pair

end Store

namespace Site

/-- Two sites whose machines show the same and list states that do the same; the one is a stack
machine on which nothing was ever called. -/
structure Twin (s s' : Site ρ) : Prop where
  given : s'.machine.given = s.machine.given
  progressed : s'.machine.progressed = s.machine.progressed
  steps : s'.machine.steps = s.machine.steps
  history : s'.machine.history = s.machine.history
  observers : s'.machine.observers = s.machine.observers
  current : s.store.Pairs s'.store s.machine.id s'.machine.id s.machine.current s'.machine.current
  table : s.store.Matches s'.store s.machine.id s'.machine.id s.machine.table s'.machine.table
  journal : s'.journal = s.journal
  clock : s'.clock = s.clock
  frames : s'.machine.frames = Stack.initial

namespace Twin

variable {s s' : Site ρ}

theorem resembles (twin : s.Twin s') : s.machine.Resembles s'.machine where
  given := twin.given
  key := twin.current.key
  progressed := twin.progressed
  steps := twin.steps
  history := twin.history
  observers := twin.observers
  contains key hkey := by
    have hrel := twin.table key hkey
    rw [Table.contains, Table.contains]
    generalize s.machine.table.get? key = found, s'.machine.table.get? key = found' at hrel
    cases hrel <;> rfl

theorem name_eq (twin : s.Twin s') : s'.machine.name = s.machine.name := by
  rw [Machine.name, Machine.name, twin.given]

theorem demand_eq (twin : s.Twin s') : s'.machine.demand = s.machine.demand := by
  rw [Machine.demand, Machine.demand, twin.current.key, twin.name_eq, twin.progressed]

theorem isDone_eq (twin : s.Twin s') : s'.machine.isDone = s.machine.isDone := by
  rw [Machine.isDone, Machine.isDone, twin.current.key]

theorem currentBehaviour_eq (twin : s.Twin s') :
    s.currentBehaviour.Plain ∧ s'.currentBehaviour = s.currentBehaviour := by
  obtain ⟨b, hplain, hb, hb'⟩ := twin.current.behaves
  rw [currentBehaviour, currentBehaviour, hb, hb']
  exact ⟨hplain, rfl⟩

theorem begun (twin : s.Twin s') : s.begun.Twin s'.begun :=
  ⟨twin.given, rfl, congrArg (· + 1) twin.steps, twin.history, twin.observers, twin.current,
    twin.table, twin.journal, twin.clock, twin.frames⟩

/-- States that do the same are entered alike. -/
theorem entered (twin : s.Twin s') {h h' : Handle} (how : Move)
    (pair : s.store.Pairs s'.store s.machine.id s'.machine.id h h') :
    (s.entered how h).Twin (s'.entered how h') where
  given := twin.given
  progressed := rfl
  steps := twin.steps
  history := by
    simp only [Site.entered, Machine.enter, twin.history, twin.current.key, twin.steps, pair.key,
      twin.clock]
  observers := twin.observers
  current := pair
  table := twin.table
  journal := by
    simp only [Site.entered, twin.journal, twin.observers, twin.current.key, pair.key]
  clock := twin.clock
  frames := twin.frames

end Twin

/-- A move into a state of its own is refused to a machine that has moved already, and when the
state is the fault state. -/
theorem enterBy_of_owns {s : Site ρ} {h : Handle} (owns : s.Owns h) (how : Move) :
    s.enterBy how h =
      if how ≠ .reset ∧ s.machine.progressed = true then
        .error (.alreadyProgressed s.machine.current.key h.key)
      else if h.key = Key.error then .error (.enterError s.machine.current.key)
      else .ok (s.entered how h) := by
  split
  · rename_i hrefused
    obtain ⟨hne, hp⟩ := hrefused
    cases how with
    | select => simp [enterBy, select, hp]
    | transit => simp [enterBy, transit, select, hp]
    | reset => exact absurd rfl hne
  · rename_i hadmitted
    have hp : how ≠ .reset → s.machine.progressed = false := by simpa using hadmitted
    split
    · rename_i he
      cases how with
      | select => simp [enterBy, select, commit, hp (by decide), owns, he]
      | transit => simp [enterBy, transit, select, commit, hp (by decide), owns, he]
      | reset => simp [enterBy, commit, owns, he]
    · rename_i he
      exact enterBy_eq_ok_iff.mpr ⟨⟨hp, owns, he⟩, rfl⟩

namespace Twin

variable {s s' : Site ρ}

theorem move (twin : s.Twin s') (how : Move) {key : Key} (hkey : key ∉ Key.ofStack) :
    (s'.answer (.move how (.key key))).1 = (s.answer (.move how (.key key))).1 ∧
      (s.answer (.move how (.key key))).2.Twin (s'.answer (.move how (.key key))).2 := by
  have hrel := twin.table key hkey
  simp only [answer, Site.move, resolve, Machine.decode, twin.name_eq]
  generalize s.machine.table.get? key = found, s'.machine.table.get? key = found' at hrel
  cases hrel with
  | none => exact ⟨rfl, twin⟩
  | some pair =>
    simp only [enterBy_of_owns pair.owned, enterBy_of_owns pair.owned', twin.progressed,
      twin.current.key, pair.key]
    split
    · exact ⟨rfl, twin⟩
    · split
      · exact ⟨rfl, twin⟩
      · exact ⟨rfl, twin.entered how pair⟩

theorem plain (twin : s.Twin s') {op : Op} (hop : op.IsPlain) :
    (s'.answer op).1 = (s.answer op).1 ∧ (s.answer op).2.Twin (s'.answer op).2 := by
  cases op with
  | observe observer =>
    exact ⟨rfl, { twin with observers := congrArg (· ++ [observer]) twin.observers }⟩
  | clearHistory => exact ⟨rfl, { twin with history := congrArg History.clear twin.history }⟩
  | limitHistory limit => exact ⟨rfl, { twin with history := rfl }⟩
  | recordDirectly source target step =>
    refine ⟨rfl, { twin with history := ?_ }⟩
    simp only [answer, withHistory, twin.history, twin.clock]
  | write entry => exact ⟨rfl, { twin with journal := congrArg (· ++ [entry]) twin.journal }⟩
  | _ => exact absurd hop id

theorem extended (twin : s.Twin s') {store store' : Store ρ} (he : s.store.Extends store)
    (he' : s'.store.Extends store') : Twin { s with store } { s' with store := store' } :=
  { twin with current := twin.current.extended he he', table := twin.table.extended he he' }

/-- States that do the same are added alike. -/
theorem attach (twin : s.Twin s') {h h' : Handle} (offer : s.store.Offers s'.store h h')
    (hkey : h.key ∉ Key.ofStack) :
    Program.replacedKey (s'.answer (.attach h')).1 = Program.replacedKey (s.answer (.attach h)).1 ∧
      (s.answer (.attach h)).2.Twin (s'.answer (.attach h')).2 := by
  simp only [answer, Site.attach, offer.key, Store.bind, offer.free, offer.free']
  by_cases hreserved : Key.isReserved h.key = true
  · simp only [hreserved, if_true]
    exact ⟨trivial, twin⟩
  · simp only [hreserved]
    have he := Store.extends_setOwner offer.free s.machine.id
    have he' := Store.extends_setOwner offer.free' s'.machine.id
    have hgrown := twin.extended he he'
    have hrel := twin.table h.key hkey
    refine ⟨?_, { hgrown with table := hgrown.table.insert (offer.pairs _ _) h.key }⟩
    generalize s.machine.table.get? h.key = found, s'.machine.table.get? h.key = found' at hrel
    cases hrel with
    | none => rfl
    | some pair => exact congrArg (fun key => Except.ok (some key)) pair.key

end Twin

/-- A machine that was made with a name of its own, or without one. -/
def made (kind : MachineKind) (given : Option String) (store : Store ρ) (id : MachineId)
    (shelf : Table Handle) (journal : List Entry) (clock : Timestamp) : Site ρ :=
  { machine := { (Machine.create store id kind).1 with given }
    store := (Machine.create store id kind).2
    shelf, journal, clock }

end Site

namespace Execution

/-- Two moments that look the same to a plain program. They differ in the state that is being
added, if one is. -/
inductive Abreast : Execution ρ → Execution ρ → Prop where
  | running {s s' : Site ρ} {focus : Program ρ} {waiting : List (Activation ρ)} : s.Twin s' →
      focus.Plain → (∀ a ∈ waiting, ∀ r, (a.resume r).Plain) →
      Abreast { site := s, focus, waiting } { site := s', focus, waiting }
  | adding {s s' : Site ρ} {h h' : Handle} {next : Except MachineError (Option Key) → Program ρ}
      {waiting : List (Activation ρ)} : s.Twin s' → s.store.Offers s'.store h h' →
      h.key ∉ Key.ofStack → (∀ r, (next r).Plain) → (∀ a ∈ waiting, ∀ r, (a.resume r).Plain) →
      Abreast
        { site := s, waiting
          focus := .perform (.attach h) fun r => next (Program.replacedKey r) }
        { site := s', waiting
          focus := .perform (.attach h') fun r => next (Program.replacedKey r) }

theorem Abreast.invoke {s s' : Site ρ} (twin : s.Twin s') {b : Behaviour ρ} (hb : b.Plain)
    {a : Activation ρ} (ha : ∀ r, (a.resume r).Plain) {waiting : List (Activation ρ)}
    (hw : ∀ a ∈ waiting, ∀ r, (a.resume r).Plain) :
    Abreast (invoke s b a waiting) (invoke s' b a waiting) := by
  cases b with
  | constant key => exact .running twin (ha _) hw
  | routine key body => exact .running twin hb (List.forall_mem_cons.mpr ⟨ha, hw⟩)
  | pop | iterate | iterateNext => exact absurd hb id

theorem Abreast.enterStep {s s' : Site ρ} (twin : s.Twin s')
    {next : Except MachineError Bool → Program ρ} (hnext : ∀ r, (next r).Plain)
    {waiting : List (Activation ρ)} (hw : ∀ a ∈ waiting, ∀ r, (a.resume r).Plain) :
    Abreast (enterStep s next waiting) (enterStep s' next waiting) := by
  unfold Execution.enterStep
  rw [twin.demand_eq]
  cases s.machine.demand with
  | error error => exact .running twin (hnext _) hw
  | ok due =>
    cases due with
    | false => exact .running twin (hnext _) hw
    | true =>
      obtain ⟨hplain, hsame⟩ := twin.currentBehaviour_eq
      change Abreast (Execution.invoke s.begun s.currentBehaviour _ _)
        (Execution.invoke s'.begun s'.currentBehaviour _ _)
      rw [hsame, twin.name_eq, twin.current.key]
      exact Abreast.invoke twin.begun hplain hnext hw

/-- Such moments are followed by such moments, or end in the same way. -/
theorem Abreast.next {e e' : Execution ρ} (abreast : Abreast e e') :
    Sum.LiftRel Abreast (· = ·) e.next e'.next := by
  cases abreast with
  | @adding s s' h h' next waiting twin offer hkey hnext hw =>
    obtain ⟨hanswer, twin⟩ := twin.attach offer hkey
    simp only [Execution.next]
    rw [hanswer]
    exact .inl (.running twin (hnext _) hw)
  | @running s s' focus waiting twin hfocus hw =>
    cases hfocus with
    | panic message => exact .inr rfl
    | done r =>
      cases waiting with
      | nil => exact .inr rfl
      | cons a rest =>
        obtain ⟨ha, hrest⟩ := List.forall_mem_cons.mp hw
        simp only [Execution.next, Activation.succeed, twin.progressed]
        exact .inl (.running twin (ha _) hrest)
    | fail error =>
      cases waiting with
      | nil => exact .inr rfl
      | cons a rest =>
        obtain ⟨ha, hrest⟩ := List.forall_mem_cons.mp hw
        exact .inl (.running twin (ha _) hrest)
    | @inspect look hsame hlook =>
      simp only [Execution.next, Site.answer, hsame _ _ twin.resembles]
      exact .inl (.running twin (hlook _) hw)
    | @move how key next hkey hnext =>
      obtain ⟨hanswer, twin⟩ := twin.move how hkey
      simp only [Execution.next]
      rw [hanswer]
      exact .inl (.running twin (hnext _) hw)
    | @perform op next hop hnext =>
      obtain ⟨hanswer, twin⟩ := twin.plain hop
      simp only [Execution.next]
      rw [hanswer]
      exact .inl (.running twin (hnext _) hw)
    | @add key body next hkey hbody hnext =>
      have he := Store.extends_alloc s.store ⟨none, .routine key body⟩
      have he' := Store.extends_alloc s'.store ⟨none, .routine key body⟩
      exact .inl (.adding (twin.extended he he') (Store.offers_alloc s.store s'.store hbody) hkey
        hnext hw)
    | @step next hnext => exact .inl (enterStep twin hnext hw)
    | @go next hnext =>
      refine .inl (.running twin (.step fun r => ?_) hw)
      rcases r with error | (_ | _)
      · exact hnext _
      · exact hnext _
      · exact .go hnext
    | @finish next hnext =>
      simp only [Execution.next, twin.isDone_eq]
      split
      · exact .inl (.running twin (hnext _) hw)
      · refine .inl (.running twin (.step fun r => ?_) hw)
        cases r with
        | error error => exact hnext _
        | ok => exact .finish hnext

/-- What the request that is answered at a moment is told. Requests for several steps are told what
the last of them was. -/
inductive Told where
  | moved (r : Except MachineError Unit)
  | added (r : Except MachineError (Option Key))
  | stepped (r : Except MachineError Bool)

/-- How the built-in state that is current answers a step. -/
def settled (s : Site ρ) (r : Site.Result ρ Unit) : Told :=
  .stepped (match r.1 with
    | .ok () => .ok r.2.machine.progressed
    | .error error => .error (.invoke s.machine.name s.machine.current.key error))

def told? (e : Execution ρ) : Option Told :=
  match e.focus with
  | .perform (.move how target) _ => some (.moved (e.site.answer (.move how target)).1)
  | .perform (.attach h) _ => some (.added (Program.replacedKey (e.site.answer (.attach h)).1))
  | .done _ => e.waiting.head?.map fun _ => .stepped (.ok e.site.machine.progressed)
  | .fail error =>
    e.waiting.head?.map fun a => .stepped (.error (.invoke a.machine a.state error))
  | .step _ =>
    match e.site.machine.demand with
    | .error error => some (.stepped (.error error))
    | .ok false => some (.stepped (.ok false))
    | .ok true =>
      match e.site.currentBehaviour with
      | .constant key => some (settled e.site (.error (.constantInvoked key), e.site))
      | b => b.builtin?.map fun act => settled e.site (act e.site.begun)
  | _ => none

/-- Two moments that nothing tells apart but the frames, and on the one machine these are those it
was made with. -/
structure Indistinct (e e' : Execution ρ) : Prop where
  resembles : e.site.machine.Resembles e'.site.machine
  journal : e'.site.journal = e.site.journal
  told : e'.told? = e.told?
  ended : ∀ outcome, e'.next = .inr outcome ↔ e.next = .inr outcome
  frames : e'.site.machine.frames = Stack.initial

theorem Abreast.told?_eq {e e' : Execution ρ} (abreast : Abreast e e') : e'.told? = e.told? := by
  cases abreast with
  | @adding s s' h h' next waiting twin offer hkey hnext hw =>
    simp only [told?, (twin.attach offer hkey).1]
  | @running s s' focus waiting twin hfocus hw =>
    cases hfocus with
    | panic | inspect | add | go | finish | fail => rfl
    | done r => simp only [told?, twin.progressed]
    | @move how key next hkey hnext => simp only [told?, (twin.move how hkey).1]
    | @perform op next hop hnext =>
      cases op with
      | observe | clearHistory | limitHistory | recordDirectly | write => rfl
      | _ => exact absurd hop id
    | @step next hnext =>
      obtain ⟨hplain, hsame⟩ := twin.currentBehaviour_eq
      simp only [told?, twin.demand_eq, hsame]
      cases hb : s.currentBehaviour with
      | constant key => simp only [settled, twin.name_eq, twin.current.key]
      | routine key body => rfl
      | pop | iterate | iterateNext =>
        rw [hb] at hplain
        exact absurd hplain id

theorem Abreast.twin {e e' : Execution ρ} (abreast : Abreast e e') : e.site.Twin e'.site := by
  cases abreast <;> assumption

theorem Abreast.tick {e e' : Execution ρ} (abreast : Abreast e e') (clock : Timestamp) :
    Abreast { e with site := { e.site with clock } }
      { e' with site := { e'.site with clock } } := by
  cases abreast with
  | running twin hfocus hw => exact .running { twin with clock := rfl } hfocus hw
  | adding twin offer hkey hnext hw => exact .adding { twin with clock := rfl } offer hkey hnext hw

theorem Abreast.indistinct {e e' : Execution ρ} (abreast : Abreast e e') : Indistinct e e' := by
  have hnext := abreast.next
  have twin := abreast.twin
  refine ⟨twin.resembles, twin.journal, abreast.told?_eq, fun outcome => ?_, twin.frames⟩
  generalize e.next = r, e'.next = r' at hnext
  cases hnext with
  | inl => exact iff_of_false nofun nofun
  | inr heq => rw [heq]

/-- What comes to a machine next from outside. -/
inductive Prompt (ρ : Type) where
  | proceed
  /-- The driver goes on with another program. -/
  | again (p : Program ρ)
  /-- Time passes. -/
  | tick (clock : Timestamp)

def Prompt.Plain : Prompt ρ → Prop
  | .again p => p.Plain
  | _ => True

/-- Where a run comes to that is given prompts, the latest first, and the moments that it has
passed. There is none if a program is to proceed that has ended, or another to begin before that. -/
def heed (first : Execution ρ) : List (Prompt ρ) → Option (List (Execution ρ) × Execution ρ)
  | [] => some ([], first)
  | prompt :: earlier =>
    match heed first earlier with
    | none => none
    | some (past, e) =>
      match prompt, e.next with
      | .proceed, .inl e' => some (e :: past, e')
      | .again p, .inr _ => some (e :: past, .start e.site p)
      | .tick clock, _ => some (past, { e with site := { e.site with clock } })
      | _, _ => none

/-- The moments of two runs are abreast if they begin so. -/
theorem Abreast.heed {first first' : Execution ρ} (abreast : Abreast first first')
    {prompts : List (Prompt ρ)} (hprompts : ∀ q ∈ prompts, q.Plain) :
    Option.Rel (fun r r' => List.Forall₂ Abreast r.1 r'.1 ∧ Abreast r.2 r'.2)
      (first.heed prompts) (first'.heed prompts) := by
  induction prompts with
  | nil => exact .some ⟨.nil, abreast⟩
  | cons prompt earlier ih =>
    obtain ⟨hprompt, hprompts⟩ := List.forall_mem_cons.mp hprompts
    have hreached := ih hprompts
    rw [Execution.heed, Execution.heed]
    generalize first.heed earlier = reached, first'.heed earlier = reached' at hreached ⊢
    cases hreached with
    | none => exact .none
    | @some r r' hr =>
      obtain ⟨past, e⟩ := r
      obtain ⟨past', e'⟩ := r'
      obtain ⟨hpast, habreast⟩ := hr
      have hnext := habreast.next
      have htick := habreast.tick
      simp only
      generalize e.next = x, e'.next = x' at hnext
      cases prompt with
      | proceed =>
        cases hnext with
        | inl hx => exact .some ⟨.cons habreast hpast, hx⟩
        | inr => exact .none
      | again p =>
        cases hnext with
        | inl => exact .none
        | inr => exact .some ⟨.cons habreast hpast, .running habreast.twin hprompt nofun⟩
      | tick clock => exact .some ⟨hpast, habreast.tick clock⟩

/-- A plain program, and any others that the driver goes on with, lead a stack machine through the
same moments as a flat machine of the same name. The frames of the stack machine never change. -/
theorem stack_is_flat_to_plain (given : Option String) (store store' : Store ρ) (id id' : MachineId)
    (shelf shelf' : Table Handle) (journal : List Entry) (clock : Timestamp) {p : Program ρ}
    (hp : p.Plain) {prompts : List (Prompt ρ)} (hprompts : ∀ q ∈ prompts, q.Plain) :
    Option.Rel (fun r r' => List.Forall₂ Indistinct r.1 r'.1 ∧ Indistinct r.2 r'.2)
      ((start (.made .flat given store id shelf journal clock) p).heed prompts)
      ((start (.made .stack given store' id' shelf' journal clock) p).heed prompts) := by
  obtain ⟨hmatches, hcurrent⟩ := Store.matches_create store store' id id'
  have twin : (Site.made .flat given store id shelf journal clock).Twin
      (.made .stack given store' id' shelf' journal clock) :=
    ⟨rfl, rfl, rfl, rfl, rfl, hcurrent, hmatches, rfl, rfl, rfl⟩
  have first : Abreast (start (.made .flat given store id shelf journal clock) p)
      (start (.made .stack given store' id' shelf' journal clock) p) := .running twin hp nofun
  have reached := first.heed hprompts
  generalize (start (.made .flat given store id shelf journal clock) p).heed prompts = flat,
    (start (.made .stack given store' id' shelf' journal clock) p).heed prompts = stack
    at reached ⊢
  cases reached with
  | none => exact .none
  | some hr => exact .some ⟨hr.1.imp fun _ _ h => h.indistinct, hr.2.indistinct⟩

/-- A state fails since the one it is linked to is not there. That is added, and the machine comes
to its end. -/
theorem stack_is_flat_to_mended_chain : ∃ (p q : Program Unit) (past past' : List (Execution Unit))
    (e e' : Execution Unit),
    (start (.made .flat (some "chain") .empty ⟨0⟩ .empty [] .epoch) p).heed
        (.replicate 12 .proceed ++ [.again q, .tick .epoch] ++ .replicate 8 .proceed) =
      some (past, e) ∧
    (start (.made .stack (some "chain") .empty ⟨0⟩ .empty [] .epoch) p).heed
        (.replicate 12 .proceed ++ [.again q, .tick .epoch] ++ .replicate 8 .proceed) =
      some (past', e') ∧
    List.Forall₂ Indistinct past past' ∧ e'.site.machine.current.key = Key.done ∧
    e'.site.machine.steps = 3 ∧ e'.site.journal.length = 2 ∧
    e'.site.machine.frames = Stack.initial := by
  let p : Program Unit := .perform (.observe "log") fun _ =>
    .add "A" (.link "B") fun _ => .perform (.move .select (.key "A")) fun _ => .go fun
      | .ok () => .done ()
      | .error error => .fail error
  let q : Program Unit :=
    .add "B" (.link Key.done) fun _ =>
      .perform (.move .reset (.key "A")) fun _ => .finish fun _ => .done ()
  have hp : p.Plain := by
    refine .perform trivial fun _ => .add (by decide) (Program.plain_link (by decide)) fun _ =>
      .move .select (by decide) fun _ => .go fun r => ?_
    cases r with
    | ok => exact .done ()
    | error error => exact .fail error
  have hq : q.Plain :=
    .add (by decide) (Program.plain_link (by decide)) fun _ =>
      .move .reset (by decide) fun _ => .finish fun _ => .done ()
  let prompts : List (Prompt Unit) :=
    .replicate 12 .proceed ++ [.again q, .tick .epoch] ++ .replicate 8 .proceed
  have hprompts : ∀ x ∈ prompts, x.Plain := by
    intro x hx
    simp only [prompts, List.mem_append, List.mem_replicate, List.mem_cons, List.not_mem_nil,
      or_false] at hx
    obtain (⟨-, rfl⟩ | rfl | rfl) | ⟨-, rfl⟩ := hx
    · trivial
    · exact hq
    · trivial
    · trivial
  let first : Execution Unit := start (.made .flat (some "chain") .empty ⟨0⟩ .empty [] .epoch) p
  have hreach : (first.heed prompts).map (fun r =>
      (r.2.site.machine.current.key, r.2.site.machine.steps, r.2.site.journal.length)) =
      some (Key.done, 3, 2) := by decide +kernel
  have hrel := stack_is_flat_to_plain (some "chain") .empty .empty ⟨0⟩ ⟨0⟩ .empty .empty []
    .epoch hp hprompts
  obtain ⟨⟨past, e⟩, hflat, hends⟩ := Option.map_eq_some_iff.mp hreach
  rw [show (start (.made .flat (some "chain") .empty ⟨0⟩ .empty [] .epoch) p).heed prompts =
    some (past, e) from hflat] at hrel
  generalize hstack : (start (.made .stack (some "chain") .empty ⟨0⟩ .empty [] .epoch) p).heed
    prompts = reached at hrel
  cases hrel with
  | @some _ r' hr =>
    obtain ⟨hpast, hlast⟩ := hr
    obtain ⟨hkey, hsteps, hjournal⟩ : e.site.machine.current.key = Key.done ∧
      e.site.machine.steps = 3 ∧ e.site.journal.length = 2 := by simpa using hends
    exact ⟨p, q, past, r'.1, e, r'.2, hflat, hstack, hpast, hlast.resembles.key.trans hkey,
      hlast.resembles.steps.trans hsteps, by rw [hlast.journal, hjournal], hlast.frames⟩

end Execution

end StateEngine
