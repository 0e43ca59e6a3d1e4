import StateEngine.Session

/-!
# Handles of a shared machine

A lock counts its handles, and in a session they are the labels that reach it. A machine behind a
lock answers through every handle as it would by itself, up to the first panic; after that it is
only given back.
-/

namespace StateEngine

open Script (Reply)

namespace Table

variable {α : Type}

/-- How many values of a table satisfy `p`. -/
def tally (t : Table α) (p : α → Bool) : Nat := t.entries.countP fun e => p e.2

theorem countP_filter_ne (p : α → Bool) (key : String) {entries : List (String × α)}
    (distinct : (entries.map Prod.fst).Nodup) :
    (entries.filter fun e => e.1 ≠ key).countP (fun e => p e.2) +
      ((entries.lookup key).any p).toNat = entries.countP fun e => p e.2 := by
  induction entries with
  | nil => rfl
  | cons e rest ih =>
    obtain ⟨k, a⟩ := e
    rw [List.map_cons, List.nodup_cons] at distinct
    by_cases hk : k = key
    · subst hk
      -- The key stands nowhere else.
      have hrest : (rest.filter fun e => e.1 ≠ k) = rest := by
        apply List.filter_eq_self.mpr
        intro e he
        have hne : e.1 ≠ k := by
          rintro rfl
          exact distinct.1 (List.mem_map.mpr ⟨e, he, rfl⟩)
        simpa using hne
      rw [List.filter_cons_of_neg (by simp), hrest, lookup_cons_self, List.countP_cons,
        Option.any_some]
      cases p a <;> rfl
    · rw [List.filter_cons_of_pos (by simpa using hk), lookup_cons_of_ne (Ne.symm hk),
        List.countP_cons, List.countP_cons, ← ih distinct.2]
      omega

theorem tally_erase (t : Table α) (p : α → Bool) (key : String) :
    (t.erase key).tally p + ((t.get? key).any p).toNat = t.tally p :=
  countP_filter_ne p key t.distinct

theorem tally_insert (t : Table α) (p : α → Bool) (key : String) (a : α) :
    (t.insert key a).tally p = (t.erase key).tally p + (p a).toNat := by
  rw [tally, insert, List.countP_cons]
  cases p a <;> rfl

theorem tally_pos {t : Table α} {p : α → Bool} {key : String} {a : α} (h : t.get? key = some a)
    (hp : p a = true) : 0 < t.tally p := by
  have herase := t.tally_erase p key
  rw [h, Option.any_some, hp, Bool.toNat_true] at herase
  omega

theorem get?_of_mem {t : Table α} {key : String} {a : α} (h : (key, a) ∈ t.entries) :
    t.get? key = some a := by
  obtain ⟨entries, distinct⟩ := t
  simp only [get?] at h ⊢
  induction entries with
  | nil => cases h
  | cons e rest ih =>
    obtain ⟨k, b⟩ := e
    rw [List.map_cons, List.nodup_cons] at distinct
    rcases List.mem_cons.mp h with heq | hrest
    · cases heq
      exact lookup_cons_self key a rest
    · have hne : key ≠ k := by
        rintro rfl
        exact distinct.1 (List.mem_map.mpr ⟨_, hrest, rfl⟩)
      rw [lookup_cons_of_ne hne]
      exact ih distinct.2 hrest

theorem exists_of_tally_pos {t : Table α} {p : α → Bool} (h : 0 < t.tally p) :
    ∃ key a, t.get? key = some a ∧ p a = true := by
  obtain ⟨⟨key, a⟩, hmem, hp⟩ := List.countP_pos_iff.mp h
  exact ⟨key, a, get?_of_mem hmem, hp⟩

theorem tally_eq_one {t : Table α} {p : α → Bool} {key : String} {a : α}
    (h : t.get? key = some a) (hp : p a = true)
    (only : ∀ other b, t.get? other = some b → p b = true → other = key) : t.tally p = 1 := by
  have herase := t.tally_erase p key
  rw [h, Option.any_some, hp, Bool.toNat_true] at herase
  have hzero : (t.erase key).tally p = 0 := by
    apply Nat.eq_zero_of_not_pos
    intro hpos
    obtain ⟨other, b, hb, hpb⟩ := exists_of_tally_pos hpos
    rw [get?_erase] at hb
    split at hb
    · cases hb
    · rename_i hne
      exact hne (only other b hb hpb)
  omega

theorem two_le_tally {t : Table α} {p : α → Bool} {key other : String} {a b : α}
    (h : t.get? key = some a) (hp : p a = true) (h' : t.get? other = some b) (hp' : p b = true)
    (hne : other ≠ key) : 2 ≤ t.tally p := by
  have herase := t.tally_erase p key
  rw [h, Option.any_some, hp, Bool.toNat_true] at herase
  have hpos : 0 < (t.erase key).tally p := tally_pos (by rw [get?_erase, if_neg hne, h']) hp'
  omega

end Table

/-- A lock to which nothing has happened but that handles came and went. -/
structure Lock.Same (before after : Lock) : Prop where
  name : after.name = before.name
  machine : after.machine = before.machine
  isPoisoned : after.isPoisoned = before.isPoisoned

theorem Lock.Same.trans {a b c : Lock} (h : a.Same b) (h' : b.Same c) : a.Same c :=
  ⟨h'.name.trans h.name, h'.machine.trans h.machine, h'.isPoisoned.trans h.isPoisoned⟩

namespace Session

/-- Every label reaches a lock, and each lock counts the labels that reach it, the handle `loose`
apart, which has no label yet. -/
structure Counts (s : Session) (loose : Option Nat) : Prop where
  reaches : ∀ label n, s.lockLabels.get? label = some n → n < s.locks.size
  counts : ∀ n lock, s.locks[n]? = some lock →
    lock.handles = s.lockLabels.tally (· == n) + (loose == some n).toNat

/-- Every handle of a lock is a label that reaches it. -/
abbrev CountsHandles (s : Session) : Prop := s.Counts none

theorem countsHandles_empty : empty.CountsHandles := ⟨nofun, nofun⟩

theorem lock?_eq_some_iff {s : Session} {label : String} {n : Nat} {lock : Lock} :
    s.lock? label = some (n, lock) ↔
      s.lockLabels.get? label = some n ∧ s.locks[n]? = some lock := by
  simp only [lock?, Option.bind_eq_bind, Option.bind_eq_some_iff, Option.some.injEq, Prod.mk.injEq]
  constructor
  · rintro ⟨k, hk, l, hl, rfl, rfl⟩
    exact ⟨hk, hl⟩
  · rintro ⟨hn, hl⟩
    exact ⟨n, hn, lock, hl, rfl, rfl⟩

namespace Ran

variable (ran : Ran) (lock : Lock)

@[simp] theorem handles_handBack : (ran.handBack lock).handles = lock.handles := by
  unfold handBack
  split <;> rfl

@[simp] theorem machine_handBack : (ran.handBack lock).machine = ran.machine := by
  unfold handBack
  split <;> rfl

@[simp] theorem name_handBack : (ran.handBack lock).name = lock.name := by
  unfold handBack
  split <;> rfl

@[simp] theorem isPoisoned_handBack :
    (ran.handBack lock).isPoisoned = (lock.isPoisoned || ran.answer.isPanic) := by
  unfold handBack
  split
  · simp_all [Lock.spoil]
  · simp_all [Lock.leave]

end Ran

theorem setLock_cases {s : Session} {n k : Nat} {after lock : Lock}
    (h : (s.setLock n after).locks[k]? = some lock) :
    (k = n ∧ lock = after) ∨ (k ≠ n ∧ s.locks[k]? = some lock) := by
  rw [setLock, Array.getElem?_setIfInBounds] at h
  by_cases hk : n = k
  · rw [if_pos hk] at h
    split at h
    · exact .inl ⟨hk.symm, (Option.some.inj h).symm⟩
    · cases h
  · rw [if_neg hk] at h
    exact .inr ⟨Ne.symm hk, h⟩

@[simp] theorem size_setLock (s : Session) (n : Nat) (lock : Lock) :
    (s.setLock n lock).locks.size = s.locks.size := Array.size_setIfInBounds

theorem getElem?_setLock {s : Session} {n : Nat} {lock after : Lock}
    (h : s.locks[n]? = some lock) : (s.setLock n after).locks[n]? = some after := by
  obtain ⟨hn, -⟩ := Array.getElem?_eq_some_iff.mp h
  rw [setLock, Array.getElem?_setIfInBounds_self_of_lt hn]

@[simp] theorem locks_withHandles (s : Session) (kind : MachineKind) (handles : Table Handle) :
    (s.withHandles kind handles).locks = s.locks := by
  cases kind <;> rfl

@[simp] theorem lockLabels_withHandles (s : Session) (kind : MachineKind)
    (handles : Table Handle) : (s.withHandles kind handles).lockLabels = s.lockLabels := by
  cases kind <;> rfl

theorem runOn_locks (s : Session) (fuel : Nat) (m : Machine) (p : Program Reply) :
    (s.runOn fuel m p).session.locks = s.locks := by
  unfold runOn
  split
  · rfl
  · exact locks_withHandles ..

theorem runOn_lockLabels (s : Session) (fuel : Nat) (m : Machine) (p : Program Reply) :
    (s.runOn fuel m p).session.lockLabels = s.lockLabels := by
  unfold runOn
  split
  · rfl
  · exact lockLabels_withHandles ..

namespace Counts

variable {s : Session} {loose : Option Nat}

theorem congr {t : Session} (h : s.Counts loose) (hlocks : t.locks = s.locks)
    (hlabels : t.lockLabels = s.lockLabels) : t.Counts loose := by
  refine ⟨?_, ?_⟩
  · rw [hlocks, hlabels]
    exact h.reaches
  · rw [hlocks, hlabels]
    exact h.counts

theorem setLock (h : s.Counts loose) {n : Nat} {lock after : Lock} (hn : s.locks[n]? = some lock)
    (hhandles : after.handles = lock.handles) : (s.setLock n after).Counts loose := by
  refine ⟨?_, fun k other hk => ?_⟩
  · rw [size_setLock]
    exact h.reaches
  · rcases setLock_cases hk with ⟨rfl, rfl⟩ | ⟨-, hold⟩
    · rw [hhandles]
      exact h.counts k lock hn
    · exact h.counts k other hold

theorem clone (h : s.CountsHandles) {n : Nat} {lock : Lock} (hn : s.locks[n]? = some lock) :
    (s.setLock n lock.clone).Counts (some n) := by
  refine ⟨?_, fun k other hk => ?_⟩
  · rw [size_setLock]
    exact h.reaches
  · rcases setLock_cases hk with ⟨rfl, rfl⟩ | ⟨hne, hold⟩
    · have hlock := h.counts k lock hn
      simp [Lock.clone, hlock, Session.setLock]
    · have hother := h.counts k other hold
      simpa [Session.setLock, beq_eq_false_iff_ne.mpr (Ne.symm hne)] using hother

theorem releaseLabel (h : s.Counts loose) (label : String) :
    (s.releaseLabel label).Counts loose := by
  unfold Session.releaseLabel
  split
  · rename_i n lock hl
    obtain ⟨hlabel, hn⟩ := lock?_eq_some_iff.mp hl
    refine ⟨fun other k hk => ?_, fun k other hk => ?_⟩
    · rw [Table.get?_erase] at hk
      split at hk
      · cases hk
      · simpa using h.reaches other k hk
    · have herase := s.lockLabels.tally_erase (· == k) label
      rw [hlabel, Option.any_some] at herase
      rcases setLock_cases hk with ⟨rfl, rfl⟩ | ⟨hne, hold⟩
      · have hlock := h.counts k lock hn
        simp only [beq_self_eq_true, Bool.toNat_true] at herase
        simp only [Lock.release, hlock]
        omega
      · rw [beq_eq_false_iff_ne.mpr (Ne.symm hne), Bool.toNat_false] at herase
        rw [h.counts k other hold, ← herase]
        rfl
  · exact h

theorem size_releaseLabel (s : Session) (label : String) :
    (s.releaseLabel label).locks.size = s.locks.size := by
  unfold Session.releaseLabel
  split
  · exact size_setLock ..
  · rfl

theorem get?_releaseLabel (h : s.Counts loose) (label other : String) :
    (s.releaseLabel label).lockLabels.get? other =
      if other = label then none else s.lockLabels.get? other := by
  unfold Session.releaseLabel
  split
  · exact Table.get?_erase ..
  · rename_i hl
    split
    · rename_i heq
      subst heq
      cases hn : s.lockLabels.get? other with
      | none => rfl
      | some n =>
        have hlock := Array.getElem?_eq_getElem (h.reaches other n hn)
        rw [lock?_eq_some_iff.mpr ⟨hn, hlock⟩] at hl
        cases hl
    · rfl

/-- A new lock has one handle and no label. -/
theorem push (h : s.CountsHandles) (m : Machine) {machines : Table Machine} :
    Counts { s with machines, locks := s.locks.push (.new m) } (some s.locks.size) := by
  refine ⟨fun label n hn => ?_, fun n lock hn => ?_⟩
  · rw [Array.size_push]
    exact Nat.lt_succ_of_lt (h.reaches label n hn)
  · rw [Array.getElem?_push] at hn
    split at hn
    · rename_i heq
      cases hn
      subst heq
      have hzero : s.lockLabels.tally (· == s.locks.size) = 0 := by
        apply Nat.eq_zero_of_not_pos
        intro hpos
        obtain ⟨label, k, hk, hks⟩ := Table.exists_of_tally_pos hpos
        have hlt := h.reaches label k hk
        rw [eq_of_beq hks] at hlt
        omega
      simp [hzero, Lock.new]
    · rename_i hne
      have hlock := h.counts n lock hn
      simpa [beq_eq_false_iff_ne.mpr (Ne.symm hne)] using hlock

/-- The loose handle is given a label. -/
theorem pointAt {n : Nat} (h : s.Counts (some n)) (hn : n < s.locks.size) (label : String) :
    (s.pointAt label n).CountsHandles := by
  have hreleased := h.releaseLabel label
  refine ⟨fun other k hk => ?_, fun k lock hk => ?_⟩
  · dsimp only [Session.pointAt] at hk ⊢
    rw [Table.get?_insert] at hk
    split at hk
    · cases hk
      rwa [size_releaseLabel]
    · exact hreleased.reaches other k hk
  · have herase := (s.releaseLabel label).lockLabels.tally_erase (· == k) label
    rw [h.get?_releaseLabel, if_pos rfl, Option.any_none, Bool.toNat_false, Nat.add_zero] at herase
    dsimp only [Session.pointAt] at hk ⊢
    rw [hreleased.counts k lock hk, Table.tally_insert, herase]
    simp

theorem runLocked (h : s.Counts loose) {n : Nat} {lock : Lock} (hn : s.locks[n]? = some lock)
    (fuel : Nat) (p : Program Reply) : (s.runLocked fuel n lock p).2.Counts loose := by
  unfold Session.runLocked
  split
  · exact h
  · rename_i m hm
    have hran : (s.runOn fuel m p).session.Counts loose :=
      h.congr (runOn_locks s fuel m p) (runOn_lockLabels s fuel m p)
    exact hran.setLock (by rwa [runOn_locks]) (Ran.handles_handBack ..)

theorem throughLock (h : s.Counts loose) (fuel : Nat) (label : String) (p : Program Reply) :
    (s.throughLock fuel label p).2.Counts loose := by
  unfold Session.throughLock
  split
  · exact h
  · rename_i hl
    exact h.runLocked (lock?_eq_some_iff.mp hl).2 fuel p

theorem onMachine (h : s.Counts loose) (fuel : Nat) (label : String) (p : Program Reply) :
    (s.onMachine fuel label p).2.Counts loose := by
  unfold Session.onMachine
  split
  · exact h
  · exact h.congr (runOn_locks ..) (runOn_lockLabels ..)

theorem peek (h : s.Counts loose) (label : String) (f : Machine → Answer) :
    (s.peek label f).2.Counts loose := by
  unfold Session.peek
  split
  · exact h
  · split <;> exact h

/-- Whatever is asked of a session, its locks count their handles afterwards. -/
theorem perform (h : s.CountsHandles) (fuel : Nat) (c : Command) :
    (s.perform fuel c).2.CountsHandles := by
  cases c with
  | create label kind => exact h.congr rfl rfl
  | build label kind steps chain =>
    have hbuilt : (s.build label kind steps chain).2.CountsHandles := by
      unfold Session.build
      dsimp only
      split <;> exact h.congr rfl rfl
    exact hbuilt
  | drop label => exact h.congr rfl rfl
  | act label a => exact h.onMachine fuel label _
  | newHandle label kind key body =>
    exact h.congr (locks_withHandles ..) (lockLabels_withHandles ..)
  | handleInfo label other kind =>
    rw [Session.perform]
    split <;> exact h
  | isReserved | constants | explain => exact h
  | share label lock =>
    rw [Session.perform]
    split
    · exact h
    · rename_i m hm
      exact (h.push m).pointAt (by simp) lock
  | cloneLock lock target =>
    rw [Session.perform]
    split
    · exact h
    · rename_i n l hl
      obtain ⟨-, hn⟩ := lock?_eq_some_iff.mp hl
      refine (h.clone hn).pointAt ?_ target
      rw [size_setLock]
      exact (Array.getElem?_eq_some_iff.mp hn).1
  | releaseLock lock => exact h.releaseLabel lock
  | intoInner lock label =>
    rw [Session.perform]
    split
    · exact h
    · split
      · exact h
      · exact (h.releaseLabel lock).congr rfl rfl
  | locked lock a => exact h.throughLock fuel lock _
  | detached lock a => exact h.throughLock fuel lock _
  | lockedKey lock => exact h.peek lock tellKey
  | lockedDone lock => exact h.peek lock tellDone
  | lockedStatus lock => exact h.peek lock .status
  | lockName lock | describeLock lock =>
    rw [Session.perform]
    split <;> exact h
  | frame label command => exact h.congr rfl rfl
  | history label command => exact h.congr rfl rfl

end Counts

/-- What can be asked of a machine through a handle: to run a program on it, or to tell where it
stands. -/
inductive Use where
  | run (p : Program Reply)
  | key
  | isDone

namespace Use

/-- Carries it out through the handle at a label. -/
def shared (u : Use) (s : Session) (fuel : Nat) (handle : String) : Response × Session :=
  match u with
  | .run p => s.throughLock fuel handle p
  | .key => s.peek handle tellKey
  | .isDone => s.peek handle tellDone

/-- Tells something of the machine at a label. -/
def told (s : Session) (label : String) (f : Machine → Answer) : Response × Session :=
  match s.machines.get? label with
  | none => s.plain (.missing label)
  | some m => s.plain (f m)

/-- Carries it out on the machine at a label, which no lock protects. -/
def plain (u : Use) (s : Session) (fuel : Nat) (label : String) : Response × Session :=
  match u with
  | .run p => s.onMachine fuel label p
  | .key => told s label tellKey
  | .isDone => told s label tellDone

end Use

/-- What has been done with the handles of lock `n` since the machine at `label` was put there. The
sessions are the one so far, and that in which the machine has stayed at its label and was used in
the same way up to and including the first panic. The last index tells whether there was one. -/
inductive Sharing (first : Session) (fuel : Nat) (label : String) (n : Nat) :
    Session → Session → Bool → Prop where
  | shared (lock : String) : first.locks.size = n →
      Sharing first fuel label n (first.perform fuel (.share label lock)).2 first false
  | used {s t : Session} {handle : String} (u : Use) : Sharing first fuel label n s t false →
      s.lockLabels.get? handle = some n →
      Sharing first fuel label n (u.shared s fuel handle).2 (u.plain t fuel label).2
        (u.shared s fuel handle).1.answer.isPanic
  | usedInVain {s t : Session} {handle : String} (u : Use) : Sharing first fuel label n s t true →
      s.lockLabels.get? handle = some n →
      Sharing first fuel label n (u.shared s fuel handle).2 t true
  | cloned {s t : Session} {panicked : Bool} {handle : String} (target : String) :
      Sharing first fuel label n s t panicked → s.lockLabels.get? handle = some n →
      Sharing first fuel label n (s.perform fuel (.cloneLock handle target)).2 t panicked
  | released {s t : Session} {panicked : Bool} {handle : String} :
      Sharing first fuel label n s t panicked → s.lockLabels.get? handle = some n →
      Sharing first fuel label n (s.perform fuel (.releaseLock handle)).2 t panicked
  | taken {s t : Session} {panicked : Bool} {handle : String} (target : String) :
      Sharing first fuel label n s t panicked → s.lockLabels.get? handle = some n →
      Sharing first fuel label n (s.perform fuel (.intoInner handle target)).2 t panicked

/-- Two sessions have the same states and the same time. -/
structure Agrees (s t : Session) : Prop where
  store : s.store = t.store
  flatHandles : s.flatHandles = t.flatHandles
  stackHandles : s.stackHandles = t.stackHandles
  clock : s.clock = t.clock

theorem Agrees.trans {r s t : Session} (h : r.Agrees s) (h' : s.Agrees t) : r.Agrees t :=
  ⟨h.store.trans h'.store, h.flatHandles.trans h'.flatHandles,
    h.stackHandles.trans h'.stackHandles, h.clock.trans h'.clock⟩

theorem Agrees.handles {s t : Session} (h : s.Agrees t) (kind : MachineKind) :
    s.handles kind = t.handles kind := by
  cases kind
  · exact h.flatHandles
  · exact h.stackHandles

theorem Agrees.withHandles {s t : Session} (h : s.Agrees t) (kind : MachineKind)
    (handles : Table Handle) :
    (s.withHandles kind handles).Agrees (t.withHandles kind handles) := by
  cases kind
  · exact ⟨h.store, rfl, h.stackHandles, h.clock⟩
  · exact ⟨h.store, h.flatHandles, rfl, h.clock⟩

theorem Agrees.site_eq {s t : Session} (h : s.Agrees t) (m : Machine) : s.site m = t.site m := by
  rw [site, site, h.store, h.handles, h.clock]

/-- A program does the same on a machine in sessions that agree. -/
theorem Agrees.runOn {s t : Session} (h : s.Agrees t) (fuel : Nat) (m : Machine)
    (p : Program Reply) :
    (s.runOn fuel m p).answer = (t.runOn fuel m p).answer ∧
      (s.runOn fuel m p).machine = (t.runOn fuel m p).machine ∧
      (s.runOn fuel m p).journal = (t.runOn fuel m p).journal ∧
      (s.runOn fuel m p).session.Agrees (t.runOn fuel m p).session := by
  unfold Session.runOn
  rw [h.site_eq]
  split
  · exact ⟨rfl, rfl, rfl, h⟩
  · refine ⟨rfl, rfl, rfl, ?_⟩
    apply Agrees.withHandles
    exact ⟨rfl, h.flatHandles, h.stackHandles, h.clock⟩

/-- What the coming and going of handles does to a session. -/
structure Shuffled (s s' : Session) : Prop where
  agrees : s'.Agrees s
  locks : ∀ (n : Nat) (lock : Lock), s.locks[n]? = some lock →
    ∃ after, s'.locks[n]? = some after ∧ lock.Same after

namespace Shuffled

variable {s s' : Session}

theorem refl (s : Session) : s.Shuffled s :=
  ⟨⟨rfl, rfl, rfl, rfl⟩, fun _ lock h => ⟨lock, h, rfl, rfl, rfl⟩⟩

theorem trans {s'' : Session} (h : s.Shuffled s') (h' : s'.Shuffled s'') : s.Shuffled s'' := by
  refine ⟨h'.agrees.trans h.agrees, fun k lock hk => ?_⟩
  obtain ⟨after, hafter, same⟩ := h.locks k lock hk
  obtain ⟨last, hlast, same'⟩ := h'.locks k after hafter
  exact ⟨last, hlast, same.trans same'⟩

/-- Labels have no part in it. -/
theorem relabel (h : s.Shuffled s') (machines : Table Machine) (lockLabels : Table Nat) :
    s.Shuffled { s' with machines, lockLabels } :=
  ⟨⟨h.agrees.store, h.agrees.flatHandles, h.agrees.stackHandles, h.agrees.clock⟩, h.locks⟩

theorem setLock {n : Nat} {lock after : Lock} (hn : s.locks[n]? = some lock)
    (same : lock.Same after) : s.Shuffled (s.setLock n after) := by
  refine ⟨⟨rfl, rfl, rfl, rfl⟩, fun k other hk => ?_⟩
  by_cases hkn : k = n
  · subst hkn
    rw [hn] at hk
    cases hk
    exact ⟨after, getElem?_setLock hn, same⟩
  · refine ⟨other, ?_, rfl, rfl, rfl⟩
    rw [Session.setLock, Array.getElem?_setIfInBounds_ne (Ne.symm hkn), hk]

theorem releaseLabel (label : String) : s.Shuffled (s.releaseLabel label) := by
  unfold Session.releaseLabel
  split
  · rename_i n lock hl
    have hset : s.Shuffled (s.setLock n lock.release) :=
      .setLock (lock?_eq_some_iff.mp hl).2 ⟨rfl, rfl, rfl⟩
    exact hset.relabel _ _
  · exact .refl s

theorem pointAt (h : s.Shuffled s') (label : String) (n : Nat) :
    s.Shuffled (s'.pointAt label n) := by
  have hreleased := h.trans (.releaseLabel label)
  exact hreleased.relabel _ _

end Shuffled

/-- The lock holds the machine that has stayed by itself. -/
structure Mirrors (s t : Session) (n : Nat) (label name : String) (panicked : Bool) : Prop where
  counts : s.CountsHandles
  agrees : s.Agrees t
  holds : ∃ lock, s.locks[n]? = some lock ∧ t.machines.get? label = some lock.machine ∧
    lock.name = name ∧ lock.isPoisoned = panicked

namespace Mirrors

variable {s t : Session} {n fuel : Nat} {label name handle : String} {panicked : Bool}

theorem shuffled {s' : Session} (h : s.Mirrors t n label name panicked) (hs : s.Shuffled s')
    (counts : s'.CountsHandles) : s'.Mirrors t n label name panicked := by
  obtain ⟨lock, hlock, hm, hname, hpoisoned⟩ := h.holds
  obtain ⟨after, hafter, same⟩ := hs.locks n lock hlock
  refine ⟨counts, hs.agrees.trans h.agrees, after, hafter, ?_, ?_, ?_⟩
  · rw [same.machine, hm]
  · rw [same.name, hname]
  · rw [same.isPoisoned, hpoisoned]

theorem lock? (h : s.Mirrors t n label name panicked) (hl : s.lockLabels.get? handle = some n) :
    ∃ lock, s.lock? handle = some (n, lock) ∧ s.locks[n]? = some lock ∧
      t.machines.get? label = some lock.machine ∧ lock.name = name ∧
      lock.isPoisoned = panicked := by
  obtain ⟨lock, hlock, hm, hname, hpoisoned⟩ := h.holds
  exact ⟨lock, lock?_eq_some_iff.mpr ⟨hl, hlock⟩, hlock, hm, hname, hpoisoned⟩

/-- Before a panic, what is asked through a handle is answered as by the machine itself. -/
theorem shared_of_calm (h : s.Mirrors t n label name false)
    (hl : s.lockLabels.get? handle = some n) (u : Use) :
    (u.shared s fuel handle).1 = (u.plain t fuel label).1 ∧
      (u.shared s fuel handle).2.Mirrors (u.plain t fuel label).2 n label name
        (u.shared s fuel handle).1.answer.isPanic := by
  obtain ⟨lock, hlock, hn, hm, hname, hpoisoned⟩ := h.lock? hl
  have henter : lock.enter = .ok lock.machine := by rw [Lock.enter, hpoisoned]; rfl
  cases u with
  | key | isDone =>
    simp only [Use.shared, Use.plain, Use.told, peek, hlock, henter, hm]
    exact ⟨rfl, h⟩
  | run p =>
    obtain ⟨hanswer, hmachine, hjournal, hagrees⟩ := h.agrees.runOn fuel lock.machine p
    have hcounts := h.counts.throughLock fuel handle p
    simp only [Use.shared, Use.plain, throughLock, hlock, runLocked, henter, onMachine, hm]
      at hcounts ⊢
    refine ⟨by rw [hanswer, hjournal], hcounts,
      ⟨hagrees.store, hagrees.flatHandles, hagrees.stackHandles, hagrees.clock⟩,
      (s.runOn fuel lock.machine p).handBack lock, getElem?_setLock (by rwa [runOn_locks]), ?_, ?_,
      ?_⟩
    · rw [Table.get?_insert, if_pos rfl, Ran.machine_handBack, hmachine]
    · rw [Ran.name_handBack, hname]
    · rw [Ran.isPoisoned_handBack, hpoisoned, Bool.false_or]

/-- After a panic nothing is done any more. -/
theorem shared_of_spoilt (h : s.Mirrors t n label name true)
    (hl : s.lockLabels.get? handle = some n) (u : Use) :
    u.shared s fuel handle = ({ answer := .failed (.poisoned name), journal := [] }, s) := by
  obtain ⟨lock, hlock, -, -, rfl, hpoisoned⟩ := h.lock? hl
  have henter : lock.enter = .error (.poisoned lock.name) := by rw [Lock.enter, hpoisoned]; rfl
  cases u with
  | key | isDone =>
    simp only [Use.shared, peek, hlock, henter]
    rfl
  | run p =>
    simp only [Use.shared, throughLock, hlock, runLocked, henter]
    rfl

theorem cloned (h : s.Mirrors t n label name panicked) (hl : s.lockLabels.get? handle = some n)
    (target : String) :
    (s.perform fuel (.cloneLock handle target)).2.Mirrors t n label name panicked := by
  obtain ⟨lock, hlock, hn, -⟩ := h.lock? hl
  refine h.shuffled ?_ (h.counts.perform fuel _)
  simp only [Session.perform, hlock]
  have hcloned : s.Shuffled (s.setLock n lock.clone) := .setLock hn ⟨rfl, rfl, rfl⟩
  exact hcloned.pointAt target n

theorem released (h : s.Mirrors t n label name panicked) :
    (s.perform fuel (.releaseLock handle)).2.Mirrors t n label name panicked :=
  h.shuffled (.releaseLabel handle) (h.counts.perform fuel _)

/-- Whoever has the only handle is given the machine, spoilt or not. -/
theorem intoInner_of_only (h : s.Mirrors t n label name panicked)
    (hl : s.lockLabels.get? handle = some n)
    (only : ∀ other, s.lockLabels.get? other = some n → other = handle) (target : String) :
    ∃ m, t.machines.get? label = some m ∧ s.perform fuel (.intoInner handle target) =
      ({ answer := .reply (.flag true), journal := [] },
        { s.releaseLabel handle with
          machines := (s.releaseLabel handle).machines.insert target m }) := by
  obtain ⟨lock, hlock, hn, hm, -⟩ := h.lock? hl
  have hone : lock.handles = 1 := by
    have hone : s.lockLabels.tally (· == n) = 1 := by
      refine Table.tally_eq_one hl (beq_self_eq_true n) fun other k hk hkn => ?_
      exact only other (eq_of_beq hkn ▸ hk)
    rw [h.counts.counts n lock hn, hone]
    rfl
  refine ⟨lock.machine, hm, ?_⟩
  simp only [Session.perform, hlock, Lock.intoInner?, hone, if_true]
  rfl

/-- With another handle around nothing happens. -/
theorem intoInner_of_other (h : s.Mirrors t n label name panicked)
    (hl : s.lockLabels.get? handle = some n) {other : String}
    (ho : s.lockLabels.get? other = some n) (hne : other ≠ handle) (target : String) :
    s.perform fuel (.intoInner handle target) =
      ({ answer := .reply (.flag false), journal := [] }, s) := by
  obtain ⟨lock, hlock, hn, -⟩ := h.lock? hl
  have hmany : lock.handles ≠ 1 := by
    have htwo : 2 ≤ s.lockLabels.tally (· == n) :=
      Table.two_le_tally hl (beq_self_eq_true n) ho (beq_self_eq_true n) hne
    rw [h.counts.counts n lock hn]
    omega
  simp only [Session.perform, hlock, Lock.intoInner?, if_neg hmany]
  rfl

theorem taken (h : s.Mirrors t n label name panicked) (hl : s.lockLabels.get? handle = some n)
    (target : String) :
    (s.perform fuel (.intoInner handle target)).2.Mirrors t n label name panicked := by
  refine h.shuffled ?_ (h.counts.perform fuel _)
  by_cases only : ∀ other, s.lockLabels.get? other = some n → other = handle
  · obtain ⟨m, -, htaken⟩ := h.intoInner_of_only hl only target
    rw [htaken]
    have hreleased : s.Shuffled (s.releaseLabel handle) := .releaseLabel handle
    exact hreleased.relabel _ _
  · obtain ⟨other, ho, hne⟩ : ∃ other, s.lockLabels.get? other = some n ∧ other ≠ handle := by
      simpa using only
    rw [h.intoInner_of_other hl ho hne]
    exact .refl s

end Mirrors

theorem Sharing.mirrors {first s t : Session} {fuel n : Nat} {label : String} {m : Machine}
    {panicked : Bool} (counts : first.CountsHandles) (hm : first.machines.get? label = some m)
    (sharing : first.Sharing fuel label n s t panicked) :
    s.Mirrors t n label m.name panicked := by
  induction sharing with
  | shared lock hsize =>
    let pushed : Session :=
      { first with machines := first.machines.erase label, locks := first.locks.push (.new m) }
    have hshared : (first.perform fuel (.share label lock)).2 = pushed.pointAt lock n := by
      simp only [Session.perform, hm, hsize]
      rfl
    have hpoint : pushed.Shuffled (pushed.pointAt lock n) := (Shuffled.refl pushed).pointAt lock n
    have hnew : pushed.locks[n]? = some (.new m) := by
      rw [← hsize]
      exact Array.getElem?_push_size
    obtain ⟨after, hafter, same⟩ := hpoint.locks n _ hnew
    have hcounts := counts.perform fuel (.share label lock)
    rw [hshared] at hcounts ⊢
    refine ⟨hcounts, hpoint.agrees.trans ⟨rfl, rfl, rfl, rfl⟩, after, hafter, ?_, same.name,
      same.isPoisoned⟩
    rw [hm, same.machine]
    rfl
  | used u _ hl ih => exact (ih.shared_of_calm hl u).2
  | usedInVain u _ hl ih =>
    rw [ih.shared_of_spoilt hl u]
    exact ih
  | cloned target _ hl ih => exact ih.cloned hl target
  | released _ hl ih => exact ih.released
  | taken target _ hl ih => exact ih.taken hl target

/-- At every moment a shared machine is where it would be by itself after the same uses, up to and
including the first in which it panicked. Before that a use through any handle has the same answer;
after that each is refused and changes nothing. Panic or not, the machine is given back to whoever
has the only handle and to nobody else. -/
theorem Sharing.behaves_as_plain {first s t : Session} {fuel n : Nat} {label : String} {m : Machine}
    {panicked : Bool} (counts : first.CountsHandles) (hm : first.machines.get? label = some m)
    (sharing : first.Sharing fuel label n s t panicked) :
    (∃ lock, s.locks[n]? = some lock ∧ t.machines.get? label = some lock.machine) ∧
      s.store = t.store ∧
      ∀ handle, s.lockLabels.get? handle = some n →
        (panicked = false →
          ∀ u : Use, (u.shared s fuel handle).1 = (u.plain t fuel label).1) ∧
        (panicked = true → ∀ u : Use,
          u.shared s fuel handle = ({ answer := .failed (.poisoned m.name), journal := [] }, s)) ∧
        ∀ target,
          ((∀ other, s.lockLabels.get? other = some n → other = handle) →
            ∃ s', s.perform fuel (.intoInner handle target) =
                ({ answer := .reply (.flag true), journal := [] }, s') ∧
              s'.machines.get? target = t.machines.get? label ∧ s'.store = s.store ∧
              ∀ other, s'.lockLabels.get? other ≠ some n) ∧
          ((∃ other, s.lockLabels.get? other = some n ∧ other ≠ handle) →
            s.perform fuel (.intoInner handle target) =
              ({ answer := .reply (.flag false), journal := [] }, s)) := by
  have mirrors := sharing.mirrors counts hm
  obtain ⟨lock, hn, hmachine, -⟩ := mirrors.holds
  refine ⟨⟨lock, hn, hmachine⟩, mirrors.agrees.store, fun handle hl =>
    ⟨?_, ?_, fun target => ⟨fun only => ?_, ?_⟩⟩⟩
  · rintro rfl u
    exact (mirrors.shared_of_calm hl u).1
  · rintro rfl u
    exact mirrors.shared_of_spoilt hl u
  · obtain ⟨m, hm, htaken⟩ := mirrors.intoInner_of_only hl only target
    refine ⟨_, htaken, ?_, ?_, ?_⟩
    · rw [Table.get?_insert, if_pos rfl, hm]
    · exact (Shuffled.releaseLabel handle).agrees.store
    · intro other ho
      rw [mirrors.counts.get?_releaseLabel] at ho
      split at ho
      · cases ho
      · rename_i hne
        exact hne (only other ho)
  · rintro ⟨other, ho, hne⟩
    exact mirrors.intoInner_of_other hl ho hne target

/-- Makes a state that panics and selects it. -/
def arm : Program Reply :=
  .wrap "Boom" (.panic "boom") fun h => .perform (.attach h) fun _ =>
    .perform (.move .select (.key "Boom")) fun _ => .done .done

/-- The machine is armed through one handle and panics in a step through the other, which is then
released. The first handle can do nothing more but give the machine back, and the step that panicked
is counted. -/
theorem behaves_as_plain_past_panic : ∃ before after t t' s',
    (empty.perform 0 (.create "m" .flat)).2.Sharing 9 "m" 0 before t false ∧
      (Use.key.shared before 9 "b").1.answer = .reply (.key (some "Boom")) ∧
      (empty.perform 0 (.create "m" .flat)).2.Sharing 9 "m" 0 after t' true ∧
      Use.key.shared after 9 "a" =
        ({ answer := .failed (.poisoned Machine.automaticName), journal := [] }, after) ∧
      after.perform 9 (.intoInner "a" "m") =
        ({ answer := .reply (.flag true), journal := [] }, s') ∧
      (s'.machines.get? "m").map Machine.steps = some 1 := by
  let first := (empty.perform 0 (.create "m" .flat)).2
  let two := ((first.perform 9 (.share "m" "a")).2.perform 9 (.cloneLock "a" "b")).2
  let armed := ((Use.run arm).shared two 9 "a").2
  let plain := ((Use.run arm).plain first 9 "m").2
  let boom : Use := .run (.step fun _ => .done .done)
  let after := ((boom.shared armed 9 "b").2.perform 9 (.releaseLock "b")).2
  have counts : first.CountsHandles := countsHandles_empty.perform 0 _
  obtain ⟨m, hm, hname⟩ : ∃ m, first.machines.get? "m" = some m ∧
    m.name = Machine.automaticName := ⟨_, rfl, rfl⟩
  have cloned : first.Sharing 9 "m" 0 two first false := .cloned "b" (.shared "a" rfl) rfl
  have calm : first.Sharing 9 "m" 0 armed plain _ := .used (.run arm) cloned rfl
  rw [show ((Use.run arm).shared two 9 "a").1.answer.isPanic = false by decide +kernel] at calm
  have hb : armed.lockLabels.get? "b" = some 0 := by decide +kernel
  have panicked : first.Sharing 9 "m" 0 _ (boom.plain plain 9 "m").2 _ := .used boom calm hb
  rw [show (boom.shared armed 9 "b").1.answer.isPanic = true by decide +kernel] at panicked
  have hb' : (boom.shared armed 9 "b").2.lockLabels.get? "b" = some 0 := by decide +kernel
  have alone : first.Sharing 9 "m" 0 after _ true := .released panicked hb'
  obtain ⟨-, -, hcalm⟩ := calm.behaves_as_plain counts hm
  obtain ⟨-, -, hspoilt⟩ := alone.behaves_as_plain counts hm
  obtain ⟨hanswers, -, -⟩ := hcalm "b" hb
  obtain ⟨-, hrefused, hgiven⟩ := hspoilt "a" (by decide +kernel)
  have only : ∀ other, after.lockLabels.get? other = some 0 → other = "a" := by
    intro other ho
    have hentries : after.lockLabels.entries = [("a", 0)] := by decide +kernel
    rw [Table.get?, hentries] at ho
    by_cases hother : other = "a"
    · exact hother
    · rw [Table.lookup_cons_of_ne hother] at ho
      cases ho
  obtain ⟨s', htaken, hmachine, -, -⟩ := (hgiven "m").1 only
  refine ⟨armed, after, _, _, s', calm, ?_, alone, ?_, htaken, ?_⟩
  · rw [hanswers rfl .key]
    rfl
  · rw [hrefused rfl .key, hname]
  · rw [hmachine]
    decide +kernel

end Session

end StateEngine
