import Sequins.Replication
import Sequins.Unadvertise
import Sequins.CloseOnce

/-!
# Missing partitions

A status page counts a partition as missing if no node lists it, and a node lists what it has
*selected*, in the states `AVAILABLE` and `REMOVING`. What it can serve is what it has loaded.
`statedMachine` puts the states of the versions beside `advertisingMachine`, in order to compare the
two over whole histories.

A version in the multiplexer is never in the state `BUILDING`: `switchVersion` sets `AVAILABLE`
before it prepares the version, so from then on, and while it is built, it lists all it is going
to have. A build that fails sets `ERROR`, for good: after a retry that succeeds it lists nothing of
what it has. Both show up on the page (`listed_before_built`). What carries the result for all other
cases (`missing_truthful`) is that a finished build has left nothing out (`Progress`).
-/

namespace Sequins

/-! ## The states of versions -/

theorem VersionState.set_ne_building (old : VersionState) {new : VersionState}
    (h : new ≠ .building) : old.set new ≠ .building := by
  cases old with
  | error => exact VersionState.noConfusion
  | available | removing | building => exact h

/-- The version that `upgrade` has just made the current one. -/
def DB.switchesTo (d : DB) : DBEvent → Option VersionRef
  | .upgraderNext _ =>
    match d.upgrader with
    | some (call, .switch _) => some call.version
    | _ => none
  | _ => none

/-- A db with the states of its versions. -/
structure StatedDB where
  /-- the db with all that happens to its partitions -/
  core : AdvertisingDB
  /-- `vs.state`: `BUILDING` in a version that is new, or still to come -/
  state : VersionRef → VersionState

namespace StatedDB

def new (root : Bytes) : StatedDB := ⟨.new root, fun _ => .building⟩

/-- The call of `setState` that goes with an event: in `switchVersion`, `upgrade`, `removeVersion`
and `build`. -/
def sets (s : StatedDB) : AdvertisingEvent → Option (VersionRef × VersionState)
  | .db (.remove removal) => some (removal.1, .removing)
  | .db e => ((s.core.db.prepares e).or (s.core.db.switchesTo e)).map fun v => (v, .available)
  | .buildFails v => some (v, .error)
  | _ => none

/-- One event. -/
def step (name : Bytes) (address : Address) (s : StatedDB) (e : AdvertisingEvent) :
    Option StatedDB :=
  (s.core.step name address e).map fun core =>
    ⟨core, (s.sets e).elim s.state fun c => Function.update s.state c.1 ((s.state c.1).set c.2)⟩

end StatedDB

/-- Every interleaving on one db of a node with peers, with the states of the versions. -/
def statedMachine (name root : Bytes) (address : Address) : Machine StatedDB AdvertisingEvent :=
  .ofStep (.new root) (StatedDB.step name address)

/-! ## What is loaded -/

/-- Version objects are made by `newVersion` only. -/
theorem DB.Acts.created {d d' : DB} {peers : Bool} {e : DBEvent} (h : d.Acts peers e d')
    (he : e.completes = false) : d'.created = d.created := by
  have hattempt : ∀ (r : Except Panic Mux) (go : Mux → DB),
      (∀ m, (go m).created = d.created) → (d.attempt r go).created = d.created := by
    intro r go hgo
    cases r with
    | error p => rfl
    | ok m => exact hgo m
  have hclose : ∀ v byDB, (d.closeVersion v byDB).created = d.created := by
    intro v byDB
    rw [closeVersion_eq]
  cases h with
  | getCurrent | getVersion | partitionsReady | ready | wake | refresh | close | upgrade | remove
  | cleanup => rfl
  | release => exact hattempt _ _ fun _ => rfl
  | listVersions hs =>
    obtain ⟨r, r', -, -, rfl⟩ := listed_of_onListVersions hs
    rfl
  | newVersion hs =>
    cases creates_of_onNewVersion hs with
    | backfillFails | refreshFails => rfl
    | backfill | refresh => cases he
  | refresherNext hs =>
    cases refreshes_of_refresherNext hs with
    | gotCurrent | gotExisting | switch => exact hattempt _ _ fun _ => rfl
    | close => exact hclose _ _
    | _ => rfl
  | upgraderNext hs =>
    cases upgrades_of_upgraderNext hs with
    | sweep => rfl
    | _ => exact hattempt _ _ fun _ => rfl
  | cleanerNext hs =>
    cases cleans_of_cleanerNext hs with
    | close => exact hclose _ _
    | gotVersion => exact hattempt _ _ fun _ => rfl
    | _ => rfl

/-- What is needed is what was selected, less what was loaded. -/
theorem Partitions.needed_mono {p q : Partitions} (hselected : q.selected = p.selected)
    (hlocal : p.localPartitions ⊆ q.localPartitions) : q.needed ⊆ p.needed := by
  intro i hi
  rw [needed, Finset.mem_filter] at hi ⊢
  exact ⟨hselected ▸ hi.1, fun h => hi.2 (hlocal h)⟩

/-- Nothing is needed once what was needed is loaded. -/
theorem Partitions.needed_updateLocalPartitions {p : Partitions} {loaded : Finset ℤ}
    (h : p.needed ⊆ loaded) : (p.updateLocalPartitions loaded).needed = ∅ := by
  rw [needed, Finset.filter_eq_empty_iff, updateLocalPartitions_selected,
    updateLocalPartitions_localPartitions]
  intro i hi hnot
  obtain ⟨hlocal, hloaded⟩ := not_or.mp (fun h => hnot (Finset.mem_union.mpr h))
  exact hloaded (h (Finset.mem_filter.mpr ⟨hi, hlocal⟩))

/-- Advertising does not change what is needed. -/
theorem Advertiser.needed_advertisePartitions (a : Advertiser) (w : ZkSession)
    (order : SetOrder ℤ) :
    (a.advertisePartitions w order).1.partitions.needed = a.partitions.needed := by
  rw [advertisePartitions]
  split <;> rfl

theorem Advertiser.needed_unadvertisePartitions (a : Advertiser) (w : ZkSession)
    (order : SetOrder ℤ) :
    (a.unadvertisePartitions w order).1.partitions.needed = a.partitions.needed := by
  rw [unadvertisePartitions]
  split <;> rfl

/-- What a build is going to load. -/
def BuildStage.planned : BuildStage → Option (Finset ℤ)
  | .waiting => none
  | .look p => some p
  | .load p => some p

namespace AdvertisingDB

variable {name root : Bytes} {address : Address} {s s' : AdvertisingDB} {e : AdvertisingEvent}

/-- What the build of a version is going to load. -/
def planned (s : AdvertisingDB) (v : VersionRef) : Option (Finset ℤ) :=
  (s.building v).bind BuildStage.planned

/-- Builds leave nothing out. -/
structure Progress (s : AdvertisingDB) : Prop where
  /-- every version has partitions, and nothing else has -/
  known : ∀ v, v ∈ s.db.created ↔ (s.partitions v).isSome
  /-- a build is going to load what is needed -/
  planned : ∀ v p, s.planned v = some p →
    ∃ a, s.partitions v = some a ∧ a.partitions.needed ⊆ p
  /-- nothing is needed after that -/
  built : ∀ v ∈ s.built, ∃ a, s.partitions v = some a ∧ a.partitions.needed = ∅

theorem progress_new : Progress (new root) where
  known := fun v => iff_of_false List.not_mem_nil (by simp [new])
  planned := fun v p hp => by cases hp
  built := fun v hv => absurd hv (Finset.notMem_empty v)

/-- What one build plans. -/
theorem planned_update {v : VersionRef} {stage : Option BuildStage}
    (hs' : s'.building = Function.update s.building v stage) {u : VersionRef} {p : Finset ℤ}
    (h : s'.planned u = some p) :
    s.planned u = some p ∨ u = v ∧ stage.bind BuildStage.planned = some p := by
  rw [planned, hs'] at h
  by_cases hu : u = v
  · subst hu
    rw [Function.update_self] at h
    exact .inr ⟨rfl, h⟩
  · rw [Function.update_of_ne hu] at h
    exact .inl h

theorem created_of_ready {v : VersionRef} {d : DB}
    (hd : d = s.db ∨ s.db.act true (.partitionsReady v) = some d) :
    d.created = s.db.created := by
  obtain rfl | hd := hd
  · rfl
  · obtain ⟨-, hd⟩ := Option.ite_none_right_eq_some.mp hd
    rw [← Option.some.inj hd]

namespace Progress

variable (h : s.Progress)
include h

/-- No partitions are touched. -/
theorem work (hpartitions : s'.partitions = s.partitions) (hcreated : s'.db.created = s.db.created)
    (hplanned : ∀ v p, s'.planned v = some p →
      s.planned v = some p ∨ ∃ a, s.partitions v = some a ∧ a.partitions.needed ⊆ p)
    (hbuilt : ∀ v ∈ s'.built,
      v ∈ s.built ∨ ∃ a, s.partitions v = some a ∧ a.partitions.needed = ∅) : s'.Progress where
  known := fun v => by
    rw [hpartitions, hcreated]
    exact h.known v
  planned := fun v p hp => by
    rw [hpartitions]
    exact (hplanned v p hp).elim (h.planned v p) id
  built := fun v hv => by
    rw [hpartitions]
    exact (hbuilt v hv).elim (h.built v) id

/-- One version needs less, or the same. -/
theorem update {v : VersionRef} {a a' : Advertiser} (ha : s.partitions v = some a)
    (hneeded : a'.partitions.needed ⊆ a.partitions.needed)
    (hpartitions : s'.partitions = Function.update s.partitions v (some a'))
    (hcreated : s'.db.created = s.db.created)
    (hplanned : ∀ u p, s'.planned u = some p → s.planned u = some p)
    (hbuilt : ∀ u ∈ s'.built, u ∈ s.built ∨ u = v ∧ a'.partitions.needed = ∅) : s'.Progress := by
  have hself : s'.partitions v = some a' := by rw [hpartitions, Function.update_self]
  have hother : ∀ u, u ≠ v → s'.partitions u = s.partitions u := fun u hu => by
    rw [hpartitions, Function.update_of_ne hu]
  have hkeep : ∀ u p, (∃ b, s.partitions u = some b ∧ b.partitions.needed ⊆ p) →
      ∃ b, s'.partitions u = some b ∧ b.partitions.needed ⊆ p := by
    rintro u p ⟨b, hb, hp⟩
    by_cases hu : u = v
    · subst hu
      obtain rfl := Option.some.inj (ha.symm.trans hb)
      exact ⟨a', hself, hneeded.trans hp⟩
    · exact ⟨b, (hother u hu).trans hb, hp⟩
  refine ⟨fun u => ?_, fun u p hp => hkeep u p (h.planned u p (hplanned u p hp)), fun u hu => ?_⟩
  · rw [hcreated, h.known]
    by_cases hu : u = v
    · rw [hu, hself, ha]
      rfl
    · rw [hother u hu]
  · obtain hu | ⟨rfl, hempty⟩ := hbuilt u hu
    · obtain ⟨b, hb, hempty⟩ := h.built u hu
      obtain ⟨b', hb', hsub⟩ := hkeep u ∅ ⟨b, hb, hempty.subset⟩
      exact ⟨b', hb', Finset.subset_empty.mp hsub⟩
    · exact ⟨a', hself, hempty⟩

/-- A new version. -/
theorem newVersion (hsound : s.db.Sound) {p : Partitions} {d : DB} {v : VersionRef}
    {zkPath : Bytes} (hd : s.db.act true (.newVersion (some p.readyClosed)) = some d)
    (hv : d.created.head? = some v) :
    Progress { s with
      db := d
      partitions := Function.update s.partitions v (some ⟨p, zkPath, false⟩) } := by
  obtain ⟨label, caller, rfl⟩ := DB.onNewVersion_some hd
  obtain rfl : (⟨s.db.created.length, label⟩ : VersionRef) = v := Option.some.inj hv
  have hnew : (⟨s.db.created.length, label⟩ : VersionRef) ∉ s.db.created := by
    intro hmem
    exact absurd (hsound.created _ hmem) (lt_irrefl _)
  -- nobody has touched it yet
  have hother : ∀ u b, s.partitions u = some b → u ≠ ⟨s.db.created.length, label⟩ := by
    rintro u b hb rfl
    exact hnew ((h.known _).mpr (by rw [hb]; rfl))
  refine ⟨fun u => ?_, fun u q hq => ?_, fun u hu => ?_⟩
  · change u ∈ _ :: s.db.created ↔ (Function.update s.partitions _ _ u).isSome
    by_cases hu : u = ⟨s.db.created.length, label⟩
    · rw [hu, Function.update_self]
      exact iff_of_true List.mem_cons_self rfl
    · rw [Function.update_of_ne hu, List.mem_cons, ← h.known]
      exact or_iff_right hu
  · obtain ⟨b, hb, hneeded⟩ := h.planned u q hq
    exact ⟨b, (Function.update_of_ne (hother u b hb) _ _).trans hb, hneeded⟩
  · obtain ⟨b, hb, hneeded⟩ := h.built u hu
    exact ⟨b, (Function.update_of_ne (hother u b hb) _ _).trans hb, hneeded⟩

/-- A build goes on, or returns, and plans nothing new. -/
theorem stage {v : VersionRef} {stage : Option BuildStage}
    (hpartitions : s'.partitions = s.partitions) (hcreated : s'.db.created = s.db.created)
    (hbuilding : s'.building = Function.update s.building v stage) (hbuilt : s'.built = s.built)
    (hstage : ∀ p, stage.bind BuildStage.planned = some p → s.planned v = some p) :
    s'.Progress := by
  apply h.work hpartitions hcreated
  · intro u p hp
    obtain hp | ⟨rfl, hp⟩ := planned_update hbuilding hp
    · exact .inl hp
    · exact .inl (hstage p hp)
  · intro u hu
    exact .inl (hbuilt ▸ hu)

/-- A build finds that there is nothing to do. -/
theorem nothingNeeded {v : VersionRef} {a : Advertiser} (ha : s.partitions v = some a)
    (hempty : a.partitions.needed = ∅) :
    Progress { s.release v with built := insert v s.built } := by
  refine h.work rfl rfl (fun u p hp => ?_) fun u hu => ?_
  · obtain hold | ⟨-, hnew⟩ := planned_update (s := s) rfl hp
    · exact .inl hold
    · cases hnew
  · obtain rfl | hu := Finset.mem_insert.mp hu
    · exact .inr ⟨a, ha, hempty⟩
    · exact .inl hu

/-- A build plans to load what is needed. -/
theorem plan {v : VersionRef} {a : Advertiser} (ha : s.partitions v = some a) :
    Progress { s with
      building := Function.update s.building v (some (.look a.partitions.needed))
      dbBuilder := some v } := by
  refine h.work rfl rfl (fun u p hp => ?_) fun _ hu => .inl hu
  obtain hold | ⟨rfl, hnew⟩ := planned_update (s := s) rfl hp
  · exact .inl hold
  · exact .inr ⟨a, ha, (Option.some.inj hnew).subset⟩

/-- A build has loaded what it planned to. -/
theorem buildDone {v : VersionRef} {a : Advertiser} {loaded : Finset ℤ}
    (hload : s.building v = some (.load loaded)) (ha : s.partitions v = some a) {d : DB}
    (hd : d.created = s.db.created) (order : SetOrder ℤ) :
    Progress { s.release v with
      built := insert v s.built
      db := d
      partitions := Function.update s.partitions v
        (some (a.updateLocalPartitions s.session loaded order).1)
      session := (a.updateLocalPartitions s.session loaded order).2 } := by
  have hplanned : s.planned v = some loaded := by
    rw [AdvertisingDB.planned, hload]
    rfl
  obtain ⟨b, hb, hneeded⟩ := h.planned v loaded hplanned
  obtain rfl := Option.some.inj (ha.symm.trans hb)
  have hempty : (a.updateLocalPartitions s.session loaded order).1.partitions.needed = ∅ :=
    Partitions.needed_updateLocalPartitions hneeded
  refine h.update ha ?_ rfl hd (fun u p hp => ?_) fun u hu => ?_
  · rw [hempty]
    exact Finset.empty_subset _
  · obtain hold | ⟨-, hnew⟩ := planned_update (s := s) rfl hp
    · exact hold
    · cases hnew
  · exact (Finset.mem_insert.mp hu).symm.imp id fun heq => ⟨heq, hempty⟩

/-! ### The steps of a build -/

theorem onBuild {v : VersionRef} (hs : s.act name address (.build v) = some s') :
    s'.Progress := by
  rw [AdvertisingDB.act] at hs
  split_ifs at hs
  · obtain rfl := Option.some.inj hs
    exact h.work rfl rfl (fun _ _ hp => .inl hp) fun _ hv => .inl hv
  · obtain rfl := Option.some.inj hs
    exact h.stage rfl rfl rfl rfl fun p hp => by cases hp

theorem onPlan {v : VersionRef} (hs : s.act name address (.plan v) = some s') : s'.Progress := by
  rw [AdvertisingDB.act] at hs
  split at hs
  · obtain ⟨a, ha, rfl⟩ := Option.map_eq_some_iff.mp hs
    split
    · next hempty => exact h.nothingNeeded ha hempty
    · exact h.plan ha
  · cases hs

theorem onLook {v : VersionRef} (hs : s.act name address (.look v) = some s') : s'.Progress := by
  rw [AdvertisingDB.act] at hs
  split at hs
  · next hlook =>
    split_ifs at hs
    · obtain rfl := Option.some.inj hs
      exact h.stage rfl rfl rfl rfl fun p hp => by cases hp
    · obtain rfl := Option.some.inj hs
      refine h.stage rfl rfl rfl rfl fun p hp => ?_
      rw [AdvertisingDB.planned, hlook]
      exact hp
  · cases hs

theorem onNextFile {v : VersionRef} (hs : s.act name address (.nextFile v) = some s') :
    s'.Progress := by
  rw [AdvertisingDB.act] at hs
  split at hs
  · next hload =>
    obtain rfl := Option.some.inj hs
    refine h.stage rfl rfl rfl rfl fun p hp => ?_
    rw [AdvertisingDB.planned, hload]
    exact hp
  · cases hs

theorem onBuildFails {v : VersionRef} (hs : s.act name address (.buildFails v) = some s') :
    s'.Progress := by
  rw [AdvertisingDB.act] at hs
  split at hs
  · obtain rfl := Option.some.inj hs
    exact h.stage rfl rfl rfl rfl fun p hp => by cases hp
  · obtain rfl := Option.some.inj hs
    exact h.stage rfl rfl rfl rfl fun p hp => by cases hp
  · cases hs

/-- **Every step of a db keeps it.** -/
theorem act (hsound : s.db.Sound) (hs : s.act name address e = some s') : s'.Progress := by
  cases e with
  | db ev =>
    rw [AdvertisingDB.act] at hs
    split at hs
    · cases hs
    · rename_i hcompletes
      obtain ⟨d, hd, rfl⟩ := Option.map_eq_some_iff.mp hs
      have hev : ev.completes = false := by
        cases hc : ev.completes with
        | false => rfl
        | true => simp [hc] at hcompletes
      exact h.work rfl ((DB.acts_of_act hd).created hev) (fun _ _ hp => .inl hp)
        fun _ hv => .inl hv
  | newVersion numPartitions selected nodes manifest =>
    obtain ⟨p, hp, hs⟩ := Option.bind_eq_some_iff.mp hs
    obtain ⟨d, hd, hs⟩ := Option.bind_eq_some_iff.mp hs
    obtain ⟨v, hv, rfl⟩ := Option.map_eq_some_iff.mp hs
    exact h.newVersion hsound hd hv
  | remote v nodes =>
    obtain ⟨a, ha, hs⟩ := Option.bind_eq_some_iff.mp hs
    obtain ⟨p, hp, hs⟩ := Option.bind_eq_some_iff.mp hs
    obtain ⟨d, hd, rfl⟩ := setPartitions_cases hs
    have hneeded : ({ a with partitions := p } : Advertiser).partitions.needed ⊆
        a.partitions.needed :=
      Partitions.needed_mono (Partitions.updateRemotePartitions_selected hp)
        (Partitions.updateRemotePartitions_frame hp).2.ge
    exact h.update ha hneeded rfl (created_of_ready hd) (fun _ _ => id) fun _ hu => .inl hu
  | startBuild =>
    rw [AdvertisingDB.act] at hs
    split at hs
    · obtain rfl := Option.some.inj hs
      exact h.work rfl rfl (fun _ _ hp => .inl hp) fun _ hv => .inl hv
    · cases hs
  | advertise order =>
    rw [AdvertisingDB.act] at hs
    split at hs
    · obtain ⟨a, ha, rfl⟩ := Option.map_eq_some_iff.mp hs
      exact h.update ha (Advertiser.needed_advertisePartitions ..).subset rfl rfl
        (fun _ _ => id) fun _ hu => .inl hu
    · cases hs
  | build v => exact h.onBuild hs
  | plan v => exact h.onPlan hs
  | look v => exact h.onLook hs
  | nextFile v => exact h.onNextFile hs
  | buildFails v => exact h.onBuildFails hs
  | buildDone v order =>
    rw [AdvertisingDB.act] at hs
    split at hs
    · rename_i loaded hload
      obtain ⟨a, ha, hs⟩ := Option.bind_eq_some_iff.mp hs
      obtain ⟨d, hd, rfl⟩ := setPartitions_cases hs
      exact h.buildDone hload ha (created_of_ready hd) order
    · cases hs
  | closePartitions v order =>
    rw [AdvertisingDB.act] at hs
    split at hs
    · obtain ⟨a, ha, rfl⟩ := Option.map_eq_some_iff.mp hs
      exact h.update ha (Advertiser.needed_unadvertisePartitions ..).subset rfl rfl
        (fun _ _ => id) fun _ hu => .inl hu
    · cases hs
  | server tree session errs =>
    obtain rfl := Option.some.inj hs
    exact h.work rfl rfl (fun _ _ hp => .inl hp) fun _ hv => .inl hv

end Progress

theorem progress_of_reachable (h : (advertisingMachine name root address).Reachable s) :
    s.Progress := by
  refine Machine.Reachable.invariant (P := Progress) (fun s hs => ?_)
    (fun s e s' hreach hprogress hs => ?_) h
  · rw [show s = .new root from hs]
    exact progress_new
  · obtain ⟨-, hs⟩ := Option.ite_none_right_eq_some.mp hs
    exact hprogress.act (DB.sound_of_reachable (reachable_db hreach)) hs

/-- What is in the multiplexer was there before, or is prepared just now. -/
theorem Moves.has (h : Moves name address s e s') (hsound : s.db.Sound) (hsound' : s'.db.Sound)
    {v : VersionRef} (hv : s'.db.mux.Has v) :
    s.db.mux.Has v ∨
      e = .db .refresherNext ∧ ∃ caller, s.db.refresher = some (.switch v caller) := by
  obtain ⟨vs, hvs, rfl⟩ := hv
  have hact : ∀ {ev}, s.db.act true ev = some s'.db → s.db.mux.Has vs.version ∨
      ev = .refresherNext ∧ ∃ caller, s.db.refresher = some (.switch vs.version caller) := by
    intro ev hev
    exact (DB.lookup_act hsound hsound' hev hvs).imp id fun h => ⟨h.1, h.2.2.2⟩
  cases h with
  | db hd => exact (hact hd).imp id fun h => ⟨congrArg _ h.1, h.2⟩
  | newVersion hpeers hd hv => exact (hact hd).imp id fun h => by cases h.1
  | remote ha hp hd =>
    obtain rfl | hd := hd
    · exact .inl ⟨vs, hvs, rfl⟩
    · exact (hact hd).imp id fun h => by cases h.1
  | buildDone hload ha hd =>
    obtain rfl | hd := hd
    · exact .inl ⟨vs, hvs, rfl⟩
    · exact (hact hd).imp id fun h => by cases h.1
  | _ => exact .inl ⟨vs, hvs, rfl⟩

end AdvertisingDB

/-! ## Versions in the multiplexer

`setState` is called at a few places, none of which sets `BUILDING`; and before a version is
prepared `AVAILABLE` is set. -/

namespace StatedDB

variable {name root : Bytes} {address : Address} {s s' : StatedDB} {e : AdvertisingEvent}

/-- The db moves, and then a state may be set. -/
theorem step_cases (hs : s.step name address e = some s') :
    s.core.step name address e = some s'.core ∧
      s'.state = (s.sets e).elim s.state fun c =>
        Function.update s.state c.1 ((s.state c.1).set c.2) := by
  obtain ⟨core, hcore, rfl⟩ := Option.map_eq_some_iff.mp hs
  exact ⟨hcore, rfl⟩

theorem reachable_core (h : (statedMachine name root address).Reachable s) :
    (advertisingMachine name root address).Reachable s.core := by
  induction h with
  | start hs =>
    rw [show _ = new root from hs]
    exact .start rfl
  | step _ hs ih => exact ih.step (step_cases hs).1

theorem sets_ne_building {c : VersionRef × VersionState} (h : s.sets e = some c) :
    c.2 ≠ .building := by
  rw [sets.eq_def] at h
  split at h
  · cases h
    exact VersionState.noConfusion
  · obtain ⟨v, -, rfl⟩ := Option.map_eq_some_iff.mp h
    exact VersionState.noConfusion
  · cases h
    exact VersionState.noConfusion
  · cases h

/-- No version goes back to `BUILDING`. -/
theorem state_ne_building (hs : s.step name address e = some s') {v : VersionRef}
    (hv : s.state v ≠ .building ∨ ∃ state, s.sets e = some (v, state)) :
    s'.state v ≠ .building := by
  rw [(step_cases hs).2]
  cases hsets : s.sets e with
  | none =>
    rw [hsets] at hv
    exact hv.resolve_right fun ⟨_, h⟩ => by cases h
  | some c =>
    change Function.update s.state c.1 _ v ≠ _
    by_cases hc : v = c.1
    · rw [hc, Function.update_self]
      exact VersionState.set_ne_building _ (sets_ne_building hsets)
    · rw [Function.update_of_ne hc]
      refine hv.resolve_right ?_
      rintro ⟨state, h⟩
      rw [hsets] at h
      exact hc (congrArg Prod.fst (Option.some.inj h)).symm

/-- **A version in the multiplexer is not in the state `BUILDING`**, though it may well be that it
is being built. -/
theorem prepared_of_reachable (h : (statedMachine name root address).Reachable s) :
    ∀ v, s.core.db.mux.Has v → s.state v ≠ .building := by
  refine Machine.Reachable.invariant
    (P := fun s => ∀ v, s.core.db.mux.Has v → s.state v ≠ .building) (fun s hs => ?_)
    (fun s e s' hreach hprepared hs => ?_) h
  · rw [show s = new root from hs]
    rintro v ⟨vs, hvs, -⟩
    cases hvs
  · intro v hv
    have hcore := (step_cases hs).1
    have hreach := reachable_core hreach
    have hsound := DB.sound_of_reachable (AdvertisingDB.reachable_db hreach)
    have hsound' := DB.sound_of_reachable (AdvertisingDB.reachable_db (hreach.step hcore))
    obtain ⟨-, hact⟩ := Option.ite_none_right_eq_some.mp hcore
    apply state_ne_building hs
    obtain hold | ⟨rfl, caller, hr⟩ := (AdvertisingDB.moves_of_act hact).has hsound hsound' hv
    · exact .inl (hprepared v hold)
    · refine .inr ⟨.available, ?_⟩
      rw [sets, DB.prepares, hr]
      · rfl
      · exact fun removal h => by cases h

/-! ## What a page has of it -/

/-- What a version has besides its partitions and its state. -/
structure VersionData where
  /-- `created`, in seconds -/
  created : ℕ
  /-- `blockStore` -/
  blockStore : StoreState
  /-- `available`, in seconds, if it is set -/
  available : Option ℕ

/-- The version object. -/
def object (s : StatedDB) (data : VersionRef → VersionData) (v : VersionRef) : Option Version :=
  (s.core.partitions v).map fun a =>
    ⟨v.name, (data v).created, a.partitions.numPartitions, a.partitions, (data v).blockStore,
      s.state v, decide (v ∈ s.core.built)⟩

/-- The version of a name in the multiplexer. -/
def version (s : StatedDB) (data : VersionRef → VersionData) (v : Bytes) : Option Version :=
  (s.core.db.mux.versions.lookup v).bind fun e => s.object data e.version

/-- The versions in the multiplexer are as their partitions and states say. -/
structure Described (s : StatedDB) : Prop where
  /-- a version is under its name -/
  name : ∀ v e, s.core.db.mux.versions.lookup v = some e → e.version.name = v
  /-- it is not `BUILDING` -/
  state : ∀ v e, s.core.db.mux.versions.lookup v = some e → s.state e.version ≠ .building
  /-- nothing is needed after it was built -/
  built : ∀ v ∈ s.core.built, ∃ a, s.core.partitions v = some a ∧ a.partitions.needed = ∅

/-- What the page assumes of the versions of a db is so in every run. -/
theorem described_of_reachable (h : (statedMachine name root address).Reachable s) :
    s.Described where
  name := (DB.sound_of_reachable (AdvertisingDB.reachable_db (reachable_core h))).known.name
  state := fun v e he => by
    have hname := (DB.sound_of_reachable
      (AdvertisingDB.reachable_db (reachable_core h))).known.name v e he
    exact prepared_of_reachable h _ ⟨e, hname ▸ he, rfl⟩
  built := (AdvertisingDB.progress_of_reachable (reachable_core h)).built

theorem name_object {data : VersionRef → VersionData} {v : VersionRef} {w : Version}
    (h : s.object data v = some w) : w.name = v.name := by
  obtain ⟨a, -, rfl⟩ := Option.map_eq_some_iff.mp h
  rfl

/-- The part of the db that its status is made from. -/
def served (s : StatedDB) (h : s.Described) (data : VersionRef → VersionData) : ServedDB where
  versions := s.core.db.mux.versions.entries.filterMap fun e =>
    (s.object data e.2.version).map fun w => (w, (data e.2.version).available)
  current := s.core.db.mux.currentVersion.map fun e => e.version.name
  nodup := by
    have hkeys := List.nodupKeys_iff_pairwise.mp s.core.db.mux.versions.nodupKeys
    rw [List.Nodup, List.pairwise_map, List.pairwise_filterMap]
    refine hkeys.imp_of_mem ?_
    intro e e' he he' hne u hu u' hu' heq
    obtain ⟨w, hw, rfl⟩ := Option.map_eq_some_iff.mp hu
    obtain ⟨w', hw', rfl⟩ := Option.map_eq_some_iff.mp hu'
    apply hne
    rw [← h.name _ _ (AList.mem_entries_iff_lookup.mp he),
      ← h.name _ _ (AList.mem_entries_iff_lookup.mp he'), ← name_object hw, ← name_object hw']
    exact heq

/-- What the page finds under a name is what is in the multiplexer. -/
theorem version_served (h : s.Described) (data : VersionRef → VersionData) (v : Bytes) :
    (s.served h data).version v = s.version data v := by
  ext w
  rw [ServedDB.version_eq_some_iff, version, Option.bind_eq_some_iff]
  constructor
  · rintro ⟨u, hu, rfl, rfl⟩
    obtain ⟨e, he, hu⟩ := List.mem_filterMap.mp hu
    obtain ⟨w, hw, rfl⟩ := Option.map_eq_some_iff.mp hu
    have hlookup := AList.mem_entries_iff_lookup.mp he
    rw [name_object hw, h.name _ _ hlookup]
    exact ⟨e.2, hlookup, hw⟩
  · rintro ⟨e, he, hw⟩
    refine ⟨(w, (data e.version).available), List.mem_filterMap.mpr ⟨⟨v, e⟩, ?_, ?_⟩, rfl, ?_⟩
    · exact AList.mem_entries_iff_lookup.mpr he
    · rw [hw]
      rfl
    · rw [name_object hw, h.name _ _ he]

end StatedDB

/-! ## Clusters

Every db of every node has a history of its own. Nothing is assumed about how these go together,
except that the nodes agree on the number of partitions of a version. -/

/-- Nodes that know each other, each with dbs that have come through any history whatsoever. What
the nodes have to do with each other, in such a history, are the events that it takes from outside:
which partitions are selected, which ones others have. -/
structure StatedCluster where
  /-- the addresses of the nodes -/
  addresses : List Address
  /-- they differ -/
  distinct : addresses.Nodup
  /-- they are addresses of hosts -/
  plain : ∀ a ∈ addresses, ∀ b ∈ a, GoURL.hostByte b = true
  /-- `DisplayPath` of the backend -/
  displayPath : Bytes → Bytes → Bytes
  /-- the names of the dbs of a node -/
  dbs : Address → List Bytes
  /-- they differ -/
  nodup : ∀ a, (dbs a).Nodup
  /-- the dbs -/
  state : Address → Bytes → StatedDB
  /-- they have a history -/
  reachable : ∀ a name, ∃ root, (statedMachine name root a).Reachable (state a name)
  /-- what else the versions have -/
  data : Address → Bytes → VersionRef → StatedDB.VersionData
  /-- the numbers of partitions are the same -/
  agree : ∀ a ∈ addresses, ∀ a' ∈ addresses, ∀ name v w w',
    (state a name).version (data a name) v = some w →
    (state a' name).version (data a' name) v = some w' → w.numPartitions = w'.numPartitions

namespace StatedCluster

variable (c : StatedCluster)

theorem described (a : Address) (name : Bytes) : (c.state a name).Described := by
  obtain ⟨root, hreach⟩ := c.reachable a name
  exact StatedDB.described_of_reachable hreach

/-- The version of a name in the multiplexer of a db of a node. -/
def version (a : Address) (name v : Bytes) : Option Version :=
  if (c.dbs a).contains name then (c.state a name).version (c.data a name) v else none

/-- The dbs of a node. -/
def servedDBs (a : Address) : AList fun _ : Bytes => ServedDB where
  entries := (c.dbs a).map fun name =>
    ⟨name, (c.state a name).served (c.described a name) (c.data a name)⟩
  nodupKeys := by
    rw [List.NodupKeys, List.keys, List.map_map]
    exact (List.map_id (c.dbs a)).symm ▸ c.nodup a

theorem lookup_servedDBs {a : Address} {name : Bytes} {db : ServedDB} :
    (c.servedDBs a).lookup name = some db ↔
      name ∈ c.dbs a ∧ db = (c.state a name).served (c.described a name) (c.data a name) := by
  rw [← AList.mem_entries_iff_lookup]
  constructor
  · intro h
    obtain ⟨name', hname', heq⟩ := List.mem_map.mp h
    cases heq
    exact ⟨hname', rfl⟩
  · rintro ⟨hname, rfl⟩
    exact List.mem_map.mpr ⟨name, hname, rfl⟩

/-- What the status pages are made from. -/
def statusCluster : StatusCluster :=
  .ofDBs c.addresses c.distinct c.plain c.displayPath c.servedDBs (by
    intro a ha a' ha' name db db' hdb hdb' u hu u' hu' hname
    obtain ⟨-, rfl⟩ := c.lookup_servedDBs.mp hdb
    obtain ⟨-, rfl⟩ := c.lookup_servedDBs.mp hdb'
    have hversion := ServedDB.version_eq_some_iff.mpr ⟨u, hu, rfl, rfl⟩
    have hversion' := ServedDB.version_eq_some_iff.mpr ⟨u', hu', rfl, hname.symm⟩
    rw [StatedDB.version_served] at hversion hversion'
    exact c.agree a ha a' ha' name _ _ _ hversion hversion')

theorem version_servedDBs (a : Address) (name v : Bytes) :
    ((c.servedDBs a).lookup name).bind (fun db => db.version v) = c.version a name v := by
  rw [version]
  split
  · next hname =>
    rw [c.lookup_servedDBs.mpr ⟨List.contains_iff_mem.mp hname, rfl⟩]
    exact StatedDB.version_served ..
  · next hname =>
    cases hdb : (c.servedDBs a).lookup name with
    | none => rfl
    | some db => exact absurd (List.contains_iff_mem.mpr (c.lookup_servedDBs.mp hdb).1) hname

/-- The nodes that are counted for a partition are those whose version lists it. -/
theorem holders_statusCluster (name v : Bytes) (p : ℕ) :
    c.statusCluster.holders name v p =
      c.addresses.countP fun a => (c.version a name v).any fun w => w.lists p := by
  change (c.addresses.map _).countP _ = _
  rw [List.countP_map]
  refine List.countP_congr fun a _ => ?_
  change ((((c.servedDBs a).lookup name).bind fun db => db.version v).any fun w => w.lists p) =
    true ↔ _
  rw [version_servedDBs]

end StatedCluster

/-- A version whose build is finished, if it did not fail, and that has nothing else; or that has
nothing, if it did. -/
def Version.Settled (w : Version) : Prop :=
  (w.state = .error → w.partitions.localPartitions = ∅) ∧
    (w.state ≠ .error →
      (w.built ∨ w.partitions.needed = ∅) ∧ w.partitions.localPartitions ⊆ w.partitions.selected)

instance (w : Version) : Decidable w.Settled := inferInstanceAs (Decidable (_ ∧ _))

/-- Such a version has what it lists. -/
theorem Version.Settled.lists_eq {w : Version} (h : w.Settled) (hstate : w.state ≠ .building)
    (hbuilt : w.built → w.partitions.needed = ∅) (p : ℕ) :
    w.lists p = w.partitions.hasLocal p := by
  obtain ⟨herror, hother⟩ := h
  by_cases he : w.state = .error
  · rw [lists, Partitions.hasLocal, he, herror he]
    rfl
  · obtain ⟨hdone, hsub⟩ := hother he
    have hneeded : w.partitions.needed = ∅ := hdone.elim hbuilt id
    have hsame : w.partitions.selected = w.partitions.localPartitions := by
      refine Finset.Subset.antisymm (fun i hi => ?_) hsub
      by_contra hnot
      exact Finset.notMem_empty i (hneeded ▸ Finset.mem_filter.mpr ⟨hi, hnot⟩)
    have hserving : (w.state == .available || w.state == .removing) = true := by
      cases hw : w.state with
      | available | removing => rfl
      | building => exact absurd hw hstate
      | error => exact absurd hw he
    rw [lists, Partitions.hasLocal, hserving, Bool.true_and, hsame]

theorem StatedCluster.lists_eq (c : StatedCluster) {a : Address} {name v : Bytes} {w : Version}
    (hw : c.version a name v = some w) (h : w.Settled) (p : ℕ) :
    w.lists p = w.partitions.hasLocal p := by
  rw [StatedCluster.version] at hw
  split at hw
  · obtain ⟨e, he, hobject⟩ := Option.bind_eq_some_iff.mp hw
    obtain ⟨b, hb, rfl⟩ := Option.map_eq_some_iff.mp hobject
    have hdescribed := c.described a name
    refine h.lists_eq (hdescribed.state v e he) (fun hbuilt => ?_) p
    obtain ⟨b', hb', hneeded⟩ := hdescribed.built _ (of_decide_eq_true hbuilt)
    obtain rfl := Option.some.inj (hb.symm.trans hb')
    exact hneeded
  · cases hw

/-- **What is missing is reported as missing**, in every cluster, whatever its nodes have been
through, when the versions in question are settled: on every page that is served then, the missing
partitions of a version are those that no node with this version in its multiplexer has. -/
theorem missing_truthful (c : StatedCluster) (name v : Bytes) (x : VersionView)
    (h : c.statusCluster.Serves name v x)
    (hsettled : ∀ a ∈ c.addresses, ∀ w ∈ c.version a name v, w.Settled) :
    x.missingPartitions = (List.range x.numPartitions).countP fun p : ℕ =>
      ∀ a ∈ c.addresses, ∀ w ∈ c.version a name v, w.partitions.hasLocal p = false := by
  rw [h.classified.missing]
  refine List.countP_congr fun p _ => ?_
  rw [decide_eq_true_eq, decide_eq_true_eq, c.holders_statusCluster, List.countP_eq_zero]
  refine forall₂_congr fun a ha => ?_
  cases hw : c.version a name v with
  | none => simp
  | some w =>
    have heq := c.lists_eq hw (hsettled a ha w hw) p
    simp [heq]

/-! ## One node -/

/-- Versions that are as new as can be. -/
def StatedDB.newData : VersionRef → VersionData := fun _ => ⟨0, .init 1 .snappy 4096, none⟩

/-- One node, `a`, with one db, `d`. -/
def StatedCluster.single (s : StatedDB) (h : (statedMachine [100] [47] [97]).Reachable s) :
    StatedCluster where
  addresses := [[97]]
  distinct := List.nodup_singleton _
  plain := by simp [GoURL.hostByte, GoURL.alphanumeric]
  displayPath := fun _ _ => []
  dbs := fun _ => [[100]]
  nodup := fun _ => List.nodup_singleton _
  state := fun a name => if a = [97] ∧ name = [100] then s else .new []
  reachable := by
    intro a name
    split
    · rename_i heq
      exact ⟨_, heq.1 ▸ heq.2 ▸ h⟩
    · exact ⟨_, .start rfl⟩
  data := fun _ _ => StatedDB.newData
  agree := by
    intro a ha a' ha' name v w w' hw hw'
    rw [List.mem_singleton.mp ha] at hw
    rw [List.mem_singleton.mp ha', hw] at hw'
    rw [Option.some.inj hw']

theorem StatedCluster.version_single {s : StatedDB}
    (h : (statedMachine [100] [47] [97]).Reachable s) (v : Bytes) :
    (single s h).version [97] [100] v = s.version StatedDB.newData v := by
  have hdb : ((single s h).dbs [97]).contains [100] = true := rfl
  have hself : ([97] : Address) = [97] ∧ ([100] : Bytes) = [100] := ⟨rfl, rfl⟩
  rw [version, if_pos hdb]
  change (if _ then s else StatedDB.new []).version _ v = _
  rw [if_pos hself]
  rfl

/-- What its page says about a version. -/
theorem StatedCluster.serves_single {s : StatedDB}
    (h : (statedMachine [100] [47] [97]).Reachable s) {v : Bytes} {n : ℕ}
    (hn : (s.version StatedDB.newData v).map Version.numPartitions = some n) :
    ∃ x, (single s h).statusCluster.Serves [100] v x ∧ x.numPartitions = n ∧
      x.missingPartitions = (List.range n).countP fun p =>
        !(s.version StatedDB.newData v).any fun w => w.lists p := by
  obtain ⟨w, hw, rfl⟩ := Option.map_eq_some_iff.mp hn
  have hversion : (((single s h).servedDBs [97]).lookup [100]).bind (·.version v) = some w :=
    ((single s h).version_servedDBs ..).trans ((version_single h v).trans hw)
  obtain ⟨status, x, hstatus, hx, hnum⟩ := (single s h).statusCluster.exists_serves
    (List.mem_cons_self ..) (List.mem_cons_self ..) hversion storedOrders
  have hserves : (single s h).statusCluster.Serves [100] v x :=
    .all (List.mem_cons_self ..) hstatus hx
  refine ⟨x, hserves, hnum, ?_⟩
  rw [hserves.classified.missing, hnum]
  refine List.countP_congr fun p _ => ?_
  rw [decide_eq_true_eq, holders_statusCluster, List.countP_eq_zero]
  change (∀ a ∈ [[97]], _) ↔ _
  rw [List.forall_mem_singleton, version_single h v]
  simp

/-- What a run leads to. -/
def StatedDB.after (es : List AdvertisingEvent) : StatedDB :=
  (Machine.runEvents (step [100] [97]) (new [47]) es).getD (new [47])

theorem StatedDB.reachable_after (es : List AdvertisingEvent)
    (h : (Machine.runEvents (step [100] [97]) (new [47]) es).isSome = true) :
    (statedMachine [100] [47] [97]).Reachable (after es) := by
  obtain ⟨s, hs⟩ := Option.isSome_iff_exists.mp h
  rw [after, hs]
  exact .run (.start rfl) es hs

/-- `backfillVersions` prepares version `1`, which has some partitions, the first of them for this
node. -/
def preparesOne (numPartitions : ℕ) : List AdvertisingEvent :=
  [.db (.listVersions (some [[49]])), .newVersion numPartitions {0} [] none, .db .refresherNext]

/-- Its build comes as far as adding files. -/
def startsToBuild : List AdvertisingEvent :=
  [.startBuild, .advertise (.ascending ℤ), .db .refresherNext, .build ⟨0, [49]⟩, .plan ⟨0, [49]⟩,
    .look ⟨0, [49]⟩]

/-- The build fails, and the next `refresh` starts another one, which does not. -/
def failsAndRetries : List AdvertisingEvent :=
  [.buildFails ⟨0, [49]⟩, .db .refresherNext, .db .refresh, .db .refresherNext,
    .db (.listVersions (some [[49]])), .db .refresherNext, .db .refresherNext, .build ⟨0, [49]⟩,
    .plan ⟨0, [49]⟩, .look ⟨0, [49]⟩, .buildDone ⟨0, [49]⟩ (.ascending ℤ)]

/-- Version `1` is ready, and becomes current. -/
def becomesCurrent : List AdvertisingEvent :=
  [.db (.ready ⟨0, [49]⟩), .db (.wake ⟨0, [49]⟩), .db (.upgrade ⟨⟨0, [49]⟩, false⟩),
    .db (.upgraderNext (.stored _)), .db (.upgraderNext (.stored _)),
    .db (.upgraderNext (.stored _))]

/-- One of two partitions is loaded, the other is missing. -/
theorem missing_truthful_half :
    ∃ s, ∃ h : (statedMachine [100] [47] [97]).Reachable s, ∃ x,
      (StatedCluster.single s h).statusCluster.Serves [100] [49] x ∧ x.numPartitions = 2 ∧
        x.missingPartitions = 1 ∧
        x.missingPartitions = (List.range x.numPartitions).countP fun p : ℕ =>
          ∀ a ∈ (StatedCluster.single s h).addresses,
            ∀ w ∈ (StatedCluster.single s h).version a [100] [49],
              w.partitions.hasLocal p = false := by
  have hreach := StatedDB.reachable_after
    (preparesOne 2 ++ startsToBuild ++ [.buildDone ⟨0, [49]⟩ (.ascending ℤ)]) (by decide +kernel)
  obtain ⟨x, hserves, hnum, hmissing⟩ := StatedCluster.serves_single hreach (v := [49]) (n := 2)
    (by decide +kernel)
  refine ⟨_, hreach, x, hserves, hnum, hmissing.trans (by decide +kernel),
    missing_truthful _ _ _ x hserves ?_⟩
  intro a ha
  rw [List.mem_singleton.mp ha, StatedCluster.version_single]
  decide +kernel

/-- **Partitions are reported before they are there, and not reported when they are.** While its
only partition is still being loaded, version `1` misses nothing, and no node has the partition.
After a build that failed, and a second one that did not, the version is current and has its
partition, and the partition is missing. -/
theorem listed_before_built :
    (∃ s, ∃ h : (statedMachine [100] [47] [97]).Reachable s, ∃ x,
      (StatedCluster.single s h).statusCluster.Serves [100] [49] x ∧ x.numPartitions = 1 ∧
        x.missingPartitions = 0 ∧
        ((StatedCluster.single s h).version [97] [100] [49]).map
          (fun w => w.partitions.hasLocal 0) = some false) ∧
    ∃ s, ∃ h : (statedMachine [100] [47] [97]).Reachable s, ∃ x,
      (StatedCluster.single s h).statusCluster.Serves [100] [49] x ∧ x.numPartitions = 1 ∧
        x.missingPartitions = 1 ∧
        ((StatedCluster.single s h).version [97] [100] [49]).map
          (fun w => w.partitions.hasLocal 0) = some true := by
  constructor
  · have hreach := StatedDB.reachable_after (preparesOne 1 ++ startsToBuild) (by decide +kernel)
    obtain ⟨x, hserves, hnum, hmissing⟩ := StatedCluster.serves_single hreach (v := [49]) (n := 1)
      (by decide +kernel)
    refine ⟨_, hreach, x, hserves, hnum, hmissing.trans (by decide +kernel), ?_⟩
    rw [StatedCluster.version_single]
    decide +kernel
  · have hreach := StatedDB.reachable_after
      (preparesOne 1 ++ startsToBuild ++ failsAndRetries ++ becomesCurrent)
      (by decide +kernel)
    obtain ⟨x, hserves, hnum, hmissing⟩ := StatedCluster.serves_single hreach (v := [49]) (n := 1)
      (by decide +kernel)
    refine ⟨_, hreach, x, hserves, hnum, hmissing.trans (by decide +kernel), ?_⟩
    rw [StatedCluster.version_single]
    decide +kernel

end Sequins
