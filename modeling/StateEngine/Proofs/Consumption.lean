import StateEngine.Proofs.Wiring

/-!
# What a failed build leaves behind

A state is given to a machine once and for all, and a build gives the states to its machine before
it knows that it will succeed. So the states before the fault are lost with the machine of a failed
build, and only these: any configuration without them is as good as it was before.
-/

namespace StateEngine

variable {ρ : Type}

namespace Builder

variable {b : Builder} {store after : Store ρ}

/-- When states were taken in the meantime, the configurations that stay valid are those without
them. -/
theorem valid_iff_of_taken {owner : MachineId} {taken : List Handle}
    (known : ∀ h ∈ b.states, store.Knows h)
    (howner : ∀ h, store.Knows h →
      after.owner? h = if h ∈ taken then some owner else store.owner? h) :
    b.Valid after ↔ b.Valid store ∧ ∀ h ∈ b.states, h ∉ taken := by
  constructor
  · intro valid
    have hfree : ∀ h ∈ b.states, h ∉ taken := by
      intro h hh hin
      have htaken := howner h (known h hh)
      rw [if_pos hin, (valid.granted h hh).2] at htaken
      cases htaken
    refine ⟨⟨valid.distinct, valid.named, fun h hh => ?_, valid.leads⟩, hfree⟩
    exact (Store.Grants.congr ((howner h (known h hh)).trans (if_neg (hfree h hh)))).mp
      (valid.granted h hh)
  · rintro ⟨valid, hfree⟩
    refine ⟨valid.distinct, valid.named, fun h hh => ?_, valid.leads⟩
    exact (Store.Grants.congr ((howner h (known h hh)).trans (if_neg (hfree h hh)))).mpr
      (valid.granted h hh)

/-- A failed build has taken the states before the fault and no others. What can be built afterwards
is what could have been built before without these states. -/
theorem failed_build_consumes_before_fault {id : MachineId} {time : Timestamp} {e : BuildError}
    (known : ∀ h ∈ b.states, store.Knows h) (failed : b.build store id time = (.error e, after)) :
    ∃ taken, b.Fails store e taken ∧
      (∀ h, store.Knows h → after.owner? h = if h ∈ taken then some id else store.owner? h) ∧
      ∀ retry : Builder, (∀ h ∈ retry.states, store.Knows h) → ∀ again later,
        (∃ m, (retry.build after again later).1 = .ok m) ↔
          retry.Valid store ∧ ∀ h ∈ retry.states, h ∉ taken := by
  obtain ⟨taken, fails⟩ := (build_eq_error_iff id time known).mp (congrArg Prod.fst failed)
  obtain ⟨left, hbuild, howner⟩ := fails.build_eq id time known
  cases failed.symm.trans hbuild
  have hgrows : store.Grows after := by
    have hbuilds := (b.build_builds store id time).grows known
    rw [failed] at hbuilds
    exact hbuilds.1
  refine ⟨taken, fails, howner, fun retry hknown again later => ?_⟩
  exact (build_eq_ok_iff again later fun h hh => hgrows.knows (hknown h hh)).trans
    (valid_iff_of_taken hknown howner)

/-- The lone state, and an initial key that names none. -/
def astray : Builder := { lone with initial := some "B" }

theorem failed_build_consumes_lone :
    (∀ h ∈ astray.states, loneStore.Knows h) ∧
    ∃ after, astray.build loneStore ⟨7⟩ .epoch =
        (.error (.machine (.unknownKey "B" "lone")), after) ∧
      after.owner? ⟨0, "A"⟩ = some ⟨7⟩ ∧
      (¬ ∃ m, (lone.build after ⟨8⟩ .epoch).1 = .ok m) ∧
      ∃ m, ((Builder.new .stack).build after ⟨8⟩ .epoch).1 = .ok m := by
  obtain ⟨after, hbuild, howned⟩ : ∃ after, astray.build loneStore ⟨7⟩ .epoch =
      (.error (.machine (.unknownKey "B" "lone")), after) ∧
        after.owner? ⟨0, "A"⟩ = some ⟨7⟩ := ⟨_, rfl, rfl⟩
  have known : ∀ h ∈ astray.states, loneStore.Knows h := known_lone
  obtain ⟨taken, -, howner, hretry⟩ := failed_build_consumes_before_fault known hbuild
  have hin : (⟨0, "A"⟩ : Handle) ∈ taken := by
    by_contra hout
    have hbefore := howner ⟨0, "A"⟩ (known_lone _ List.mem_cons_self)
    rw [if_neg hout, howned] at hbefore
    cases hbefore
  refine ⟨known_lone, after, hbuild, howned, fun hm => ?_, ?_⟩
  · exact ((hretry lone known_lone ⟨8⟩ .epoch).mp hm).2 _ List.mem_cons_self hin
  · refine (hretry (.new .stack) nofun ⟨8⟩ .epoch).mpr ⟨⟨List.nodup_nil, ?_, nofun, nofun⟩, nofun⟩
    rintro ⟨_, hname, -⟩
    cases hname

/-- The initial key is at fault, and the state before it is lost to the build that corrects the
key. -/
theorem astray_loses_state :
    loneStore.owner? ⟨0, "A"⟩ = none ∧
    (astray.build loneStore ⟨7⟩ .epoch).1 = .error (.machine (.unknownKey "B" "lone")) ∧
    (astray.build loneStore ⟨7⟩ .epoch).2.owner? ⟨0, "A"⟩ = some ⟨7⟩ ∧
    (lone.build (astray.build loneStore ⟨7⟩ .epoch).2 ⟨8⟩ .epoch).1 =
      .error (.machine (.alreadyBound "A" ⟨7⟩)) :=
  ⟨rfl, rfl, rfl, rfl⟩

end Builder

end StateEngine
