import Sequins.DB

/-!
# Versions only roll forward

Whatever the interleaving, a db moves from one version to a greater one, never removes the
version it is on, and does not run into the panics of the multiplexer (`rolls_forward`). The
link between the goroutines is the name of the current version:

* what is going to be removed is older than the current version (`Mux.Stale`);
* what may still become current is in the multiplexer under its own pointer, or is older than
  the current version, and will then be turned away (`Mux.Placed`).

Both survive every change another goroutine makes to the multiplexer (`Mux.Advances`), so
`DB.Sound`, which says this of every stage and every waiting goroutine, is kept by each event:
only the goroutine that moves has anything to show.
-/

namespace Sequins

namespace Mux

variable {m m' : Mux} {v : VersionRef} {e : Entry}

/-! ## Placement -/

/-- The version is in the map, under its own pointer. -/
def Has (m : Mux) (v : VersionRef) : Prop :=
  ∃ e, m.versions.lookup v.name = some e ∧ e.version = v

theorem mem_getAll_of_has {m : Mux} (order : IterOrder (Σ _ : Bytes, Entry)) {v : VersionRef}
    (hv : m.Has v) : v ∈ m.getAll order := by
  obtain ⟨vs, hvs, rfl⟩ := hv
  refine List.mem_map.mpr ⟨⟨vs.version.name, vs⟩, ?_, rfl⟩
  rw [IterOrder.mem_arrange, AList.mem_entries_iff_lookup]
  exact hvs

/-- The current version has a greater name. -/
def Outdated (m : Mux) (v : VersionRef) : Prop :=
  ∃ e, m.currentVersion = some e ∧ v.name < e.version.name

/-- The version was prepared at some time. -/
def Prepared (m : Mux) (v : VersionRef) : Prop := ∃ g, (v, g) ∈ m.prepared

/-- What holds of a version that may still become current. -/
def Placed (m : Mux) (v : VersionRef) : Prop := m.Prepared v ∧ (m.Has v ∨ m.Outdated v)

/-- What holds of a version that is going to be removed. -/
def Stale (m : Mux) (v : VersionRef) : Prop := m.Prepared v ∧ m.Outdated v

/-- Distinct names that are not in the map. -/
def Absent (m : Mux) (names : List Bytes) : Prop :=
  names.Nodup ∧ ∀ name ∈ names, m.versions.lookup name = none

theorem Known.prepared_of_has (h : m.Known) (hv : m.Has v) : m.Prepared v := by
  obtain ⟨e, he, rfl⟩ := hv
  exact ⟨e.count, h.entry _ e he⟩

theorem Known.has_of_mem_getAll (h : m.Known) {order : IterOrder (Σ _ : Bytes, Entry)}
    (hv : v ∈ m.getAll order) : m.Has v := by
  obtain ⟨⟨name, e⟩, he, rfl⟩ := List.mem_map.mp hv
  rw [IterOrder.mem_arrange, AList.mem_entries_iff_lookup] at he
  obtain rfl := h.name name e he
  exact ⟨e, he, rfl⟩

/-- What a copy of an entry says is what the entry says. -/
theorem Known.copy (h : m.Known) {name : Bytes} {e' : Entry}
    (he' : m.versions.lookup name = some e') (hpair : e'.pair = e.pair) :
    e.version.name = name ∧ e.pair ∈ m.prepared := by
  have hversion : e'.version = e.version := congrArg Prod.fst hpair
  exact ⟨hversion ▸ h.name name e' he', hpair ▸ h.entry name e' he'⟩

/-- What is older than something outdated is outdated. -/
theorem Outdated.of_le {w : VersionRef} (h : m.Outdated w) (hle : v.name ≤ w.name) :
    m.Outdated v := by
  obtain ⟨e, he, hlt⟩ := h
  exact ⟨e, he, lt_of_le_of_lt hle hlt⟩

/-- A change after which what was placed is placed, and what was outdated is outdated. -/
structure Advances (m m' : Mux) : Prop where
  /-- what may become current -/
  placed : ∀ v, m.Placed v → m'.Placed v
  /-- what is going to be removed -/
  stale : ∀ v, m.Stale v → m'.Stale v

/-- A change that takes nothing out of the map, and does not bring back what was taken out. -/
structure Grows (m m' : Mux) : Prop extends Advances m m' where
  /-- entries stay -/
  entries : ∀ name e, m.versions.lookup name = some e → m'.versions.lookup name = some e
  /-- history stays -/
  history : ∀ p ∈ m.prepared, p ∈ m'.prepared
  /-- what is gone stays gone -/
  gone : ∀ v, m.Prepared v → ¬ m.Has v → ¬ m'.Has v

/-- A change that brings nothing new into the map. -/
structure Shrinks (m m' : Mux) : Prop extends Advances m m' where
  /-- absent names stay absent -/
  absent : ∀ name, m.versions.lookup name = none → m'.versions.lookup name = none
  /-- nothing was prepared -/
  history : m'.prepared = m.prepared

theorem Absent.mono {names : List Bytes} (h : m.Absent names)
    (hm : ∀ name, m.versions.lookup name = none → m'.versions.lookup name = none) :
    m'.Absent names := ⟨h.1, fun name hname => hm name (h.2 name hname)⟩

/-! ## What the methods do to it -/

/-- A version that was absent comes in. -/
theorem grows_prepare (hm : m.prepare v = .ok m') (hfresh : ¬ m.Prepared v) : m.Grows m' := by
  have hentries : ∀ name e, m.versions.lookup name = some e →
      m'.versions.lookup name = some e := by
    obtain ⟨hnone, rfl⟩ := prepare_cases hm
    intro name e he
    by_cases hname : name = v.name
    · rw [hname, hnone] at he
      cases he
    · rwa [AList.lookup_insert_ne hname]
  have hhistory : ∀ p ∈ m.prepared, p ∈ m'.prepared := by
    obtain ⟨-, rfl⟩ := prepare_cases hm
    exact fun p hp => List.mem_cons_of_mem _ hp
  have hcurrent : m'.currentVersion = m.currentVersion := by rw [(prepare_cases hm).2]
  have houtdated : ∀ w, m.Outdated w → m'.Outdated w := by
    rintro w ⟨e, he, hlt⟩
    exact ⟨e, hcurrent.trans he, hlt⟩
  refine ⟨⟨?_, ?_⟩, hentries, hhistory, ?_⟩
  · rintro w ⟨⟨g, hg⟩, hw⟩
    refine ⟨⟨g, hhistory _ hg⟩, ?_⟩
    obtain ⟨e, he, hv⟩ | hout := hw
    · exact .inl ⟨e, hentries _ e he, hv⟩
    · exact .inr (houtdated w hout)
  · rintro w ⟨⟨g, hg⟩, hw⟩
    exact ⟨⟨g, hhistory _ hg⟩, houtdated w hw⟩
  · rintro w hprep hnot ⟨e, he, hv⟩
    obtain ⟨-, rfl⟩ := prepare_cases hm
    obtain ⟨-, rfl⟩ | ⟨-, he⟩ := AList.lookup_insert_eq_some he
    · -- the version that came in is a new one
      obtain rfl : v = w := hv
      exact hfresh hprep
    · exact hnot ⟨e, he, hv⟩

/-- A version becomes current that is not older than the one before. -/
theorem advances_upgrade (hm : m.upgrade v = .ok m') (hv : ¬ m.Outdated v) : m.Advances m' := by
  obtain ⟨e, -, rfl, rfl⟩ := upgrade_cases hm
  have houtdated : ∀ w, m.Outdated w → ({ m with currentVersion := some e } : Mux).Outdated w := by
    rintro w ⟨c, hc, hlt⟩
    refine ⟨e, rfl, lt_of_lt_of_le hlt ?_⟩
    exact not_lt.mp fun hlt => hv ⟨c, hc, hlt⟩
  exact ⟨fun w hw => ⟨hw.1, hw.2.imp id (houtdated w)⟩, fun w hw => ⟨hw.1, houtdated w hw.2⟩⟩

/-- An entry is replaced by a copy. -/
theorem has_armTimer {e' : Entry} (he' : m.versions.lookup v.name = some e')
    (hpair : e'.pair = e.pair) (w : VersionRef) : (m.armTimer v e).Has w ↔ m.Has w := by
  have hversion : e'.version = e.version := congrArg Prod.fst hpair
  constructor
  · rintro ⟨c, hc, hw⟩
    obtain ⟨hname, rfl⟩ | ⟨-, hc⟩ := AList.lookup_insert_eq_some hc
    · exact ⟨e', by rwa [hname], hversion.trans hw⟩
    · exact ⟨c, hc, hw⟩
  · rintro ⟨c, hc, hw⟩
    by_cases hname : w.name = v.name
    · rw [hname, he'] at hc
      obtain rfl := Option.some.inj hc
      refine ⟨e, ?_, hversion.symm.trans hw⟩
      rw [hname]
      exact AList.lookup_insert _
    · exact ⟨c, by rwa [Mux.armTimer, AList.lookup_insert_ne hname], hw⟩

theorem shrinks_armTimer {e' : Entry} (he' : m.versions.lookup v.name = some e')
    (hpair : e'.pair = e.pair) : m.Shrinks (m.armTimer v e) := by
  have hhas := fun w => (has_armTimer he' hpair w).mpr
  refine ⟨⟨fun w hw => ⟨hw.1, hw.2.imp (hhas w) id⟩, fun w hw => hw⟩, fun name hname => ?_, rfl⟩
  have hne : name ≠ v.name := by
    rintro rfl
    rw [he'] at hname
    cases hname
  rwa [Mux.armTimer, AList.lookup_insert_ne hne]

/-- A version older than the current one goes. -/
theorem shrinks_delete (hv : m.Outdated v) : m.Shrinks (m.delete v) := by
  refine ⟨⟨fun w hw => ⟨hw.1, ?_⟩, fun w hw => hw⟩, fun name hname => ?_, rfl⟩
  · obtain ⟨e, he, hw'⟩ | hout := hw.2
    · by_cases hname : w.name = v.name
      · exact .inr (Outdated.of_le hv hname.le)
      · exact .inl ⟨e, by rwa [Mux.delete, AList.lookup_erase_ne hname], hw'⟩
    · exact .inr hout
  · by_cases hne : name = v.name
    · rw [hne, Mux.delete]
      exact AList.lookup_erase v.name _
    · rwa [Mux.delete, AList.lookup_erase_ne hne]

theorem not_has_delete {w : VersionRef} (hname : w.name = v.name) : ¬ (m.delete v).Has w := by
  rintro ⟨e, he, -⟩
  exact (AList.lookup_erase_eq_some he).1 hname

end Mux

/-! ## The stages

What each goroutine knows between two of its critical sections. That is little: the locks keep
goroutines of the same kind apart, and what the others can do to the multiplexer is `Grows` or
`Shrinks`. -/

/-- The names `backfillVersions` has not tried when it called `switchVersion`. -/
def SwitchCaller.rest : SwitchCaller → List Bytes
  | .refresh => []
  | .backfill rest => rest

/-- The holder of `refreshLock` knows which names are not in the multiplexer, and that the
object it made is new. -/
def RefreshStage.Ok (m : Mux) (created : List VersionRef) : RefreshStage → Prop
  | .backfill => ∀ name, m.versions.lookup name = none
  | .loop names => m.Absent names
  | .gotExisting latest existing => existing = none → m.Absent [latest]
  | .create latest => m.Absent [latest]
  | .switch v caller => m.Absent (v.name :: caller.rest) ∧ v ∈ created ∧ ¬ m.Prepared v
  | .select v caller => m.Absent caller.rest ∧ m.Placed v
  | .upgrade _ caller => m.Absent caller.rest
  | _ => True

/-- The holder of `upgradeLock` knows the current version, since nobody else changes it. -/
def UpgradeStage.Ok (m : Mux) (v : VersionRef) : UpgradeStage → Prop
  | .gotCurrent current => current = m.currentVersion.map Entry.version
  | .switch current =>
    current = m.currentVersion.map Entry.version ∧ ¬ m.Outdated v ∧ current ≠ some v
  | .sweep current =>
    m.currentVersion.map Entry.version = some v ∧ ∀ c, current = some c → c.name < v.name

/-- The entry that a call of `remove` has a copy of is still there until it is deleted. -/
def RemoveCall.Ok (m : Mux) (call : RemoveCall) : Prop :=
  m.Stale call.version ∧
    match call.stage with
    | .called => True
    | .deleted e => e.pair ∈ m.prepared ∧ ¬ m.Has e.version ∧ ¬ m.Has call.version
    | .marked e | .armed e | .expired e =>
      ∃ e', m.versions.lookup call.version.name = some e' ∧ e'.pair = e.pair

/-- The holder of `cleanupLock` removes what is stale. -/
def CleanStage.Ok (m : Mux) : CleanStage → Prop
  | .remove call => call.Ok m
  | .close v => m.Prepared v ∧ ¬ m.Has v
  | _ => True

section Mono

variable {m m' : Mux}

/-- The other goroutines only take versions out, so what was absent is absent. -/
theorem RefreshStage.Ok.mono {created : List VersionRef} {r : RefreshStage} (h : r.Ok m created)
    (hm : m.Shrinks m') : r.Ok m' created := by
  have hfresh : ∀ v, ¬ m.Prepared v → ¬ m'.Prepared v := by
    intro v hv
    rwa [Mux.Prepared, hm.history]
  cases r with
  | backfill => exact fun name => hm.absent name (h name)
  | loop names => exact Mux.Absent.mono h hm.absent
  | gotExisting latest existing => exact fun he => (h he).mono hm.absent
  | create latest => exact Mux.Absent.mono h hm.absent
  | switch v caller => exact ⟨h.1.mono hm.absent, h.2.1, hfresh v h.2.2⟩
  | select v caller => exact ⟨h.1.mono hm.absent, hm.placed v h.2⟩
  | upgrade v caller => exact Mux.Absent.mono h hm.absent
  | _ => trivial

/-- Nobody else changes what is current. -/
theorem UpgradeStage.Ok.mono {v : VersionRef} {u : UpgradeStage} (h : u.Ok m v)
    (hm : m'.currentVersion = m.currentVersion) : u.Ok m' v := by
  cases u with
  | gotCurrent current =>
    rw [UpgradeStage.Ok, hm]
    exact h
  | switch current =>
    rw [UpgradeStage.Ok, Mux.Outdated, hm]
    exact h
  | sweep current =>
    rw [UpgradeStage.Ok, hm]
    exact h

/-- Nobody else takes a version out. -/
theorem CleanStage.Ok.mono {c : CleanStage} (h : c.Ok m) (hm : m.Grows m') : c.Ok m' := by
  have hgone : ∀ v, m.Prepared v ∧ ¬ m.Has v → m'.Prepared v ∧ ¬ m'.Has v := by
    rintro v ⟨⟨g, hg⟩, hnot⟩
    exact ⟨⟨g, hm.history _ hg⟩, hm.gone v ⟨g, hg⟩ hnot⟩
  cases c with
  | remove call =>
    obtain ⟨v, shouldWait, stage⟩ := call
    obtain ⟨hstale, hstage⟩ := h
    refine ⟨hm.stale v hstale, ?_⟩
    cases stage with
    | called => trivial
    | deleted e =>
      obtain ⟨hpair, he, hv⟩ := hstage
      exact ⟨hm.history _ hpair, (hgone _ ⟨⟨_, hpair⟩, he⟩).2, (hgone _ ⟨hstale.1, hv⟩).2⟩
    | marked e | armed e | expired e =>
      obtain ⟨e', he', hpair⟩ := hstage
      exact ⟨e', hm.entries _ e' he', hpair⟩
  | close v => exact hgone v h
  | _ => trivial

end Mono

/-! ## The invariant -/

/-- The panics of `prepare` and `mustGet`. -/
def Panic.OfVersions : Panic → Prop
  | .alreadyPrepared _ | .doesNotExist _ | .anotherReference _ => True
  | .negativeCounter | .closeOfClosedChannel => False

namespace DB

/-- What holds of a db at any time. -/
structure Sound (d : DB) : Prop where
  /-- wait groups are not mixed up -/
  known : d.mux.Known
  /-- the current version is in the multiplexer -/
  current : ∀ e, d.mux.currentVersion = some e → d.mux.Has e.version
  /-- addresses are not reused -/
  created : ∀ v ∈ d.created, v.id < d.created.length
  /-- what was prepared was made by `newVersion` -/
  prepared : ∀ p ∈ d.mux.prepared, p.1 ∈ d.created
  /-- the holder of `refreshLock` -/
  refresher : ∀ r, d.refresher = some r → r.Ok d.mux d.created
  /-- the goroutines waiting for `ready` -/
  waiters : ∀ v ∈ d.waiters, d.mux.Placed v
  /-- the calls of `upgrade` waiting for their lock -/
  upgrades : ∀ call ∈ d.upgrades, d.mux.Placed call.version
  /-- the holder of `upgradeLock` -/
  upgrader : ∀ u, d.upgrader = some u → d.mux.Placed u.1.version ∧ u.2.Ok d.mux u.1.version
  /-- the calls of `removeVersion` waiting for their lock -/
  removals : ∀ r ∈ d.removals, d.mux.Stale r.1
  /-- the holder of `cleanupLock` -/
  cleaner : ∀ c, d.cleaner = some c → c.Ok d.mux
  /-- every current version had a greater name than the one before -/
  currents : d.currents.Pairwise (· > ·) ∧
    d.currents.head? = d.mux.currentVersion.map fun e => e.version.name
  /-- no panic of `prepare` or `mustGet` -/
  panic : ∀ p, d.panic = some p → ¬ p.OfVersions

variable {d d' : DB}

theorem sound_new : new.Sound where
  known := Mux.known_new
  current := fun _ he => by cases he
  created := fun _ hv => by cases hv
  prepared := fun _ hp => by cases hp
  refresher := by
    intro r hr
    obtain rfl := Option.some.inj hr
    exact fun _ => rfl
  waiters := fun _ hv => by cases hv
  upgrades := fun _ hc => by cases hc
  upgrader := fun _ hu => by cases hu
  removals := fun _ hr => by cases hr
  cleaner := fun _ hc => by cases hc
  currents := ⟨List.Pairwise.nil, rfl⟩
  panic := fun _ hp => by cases hp

/-! Changes that leave the entries alone. -/

theorem Sound.setMux (h : d.Sound) {m : Mux}
    (hm : m.versions = d.mux.versions ∧ m.currentVersion = d.mux.currentVersion ∧
      m.nextCount = d.mux.nextCount ∧ m.prepared = d.mux.prepared) :
    ({ d with mux := m } : DB).Sound := by
  have hknown := h.known.of_frame hm
  obtain ⟨mux, created, partitionsReady, ready, cancelled, refresher, upgrader, cleaner, clients,
    waiters, upgrades, removals, cleanups, panic, currents, closes⟩ := d
  obtain ⟨versions, currentVersion, counts, nextCount, prepared⟩ := m
  obtain ⟨rfl, rfl, -, rfl⟩ := hm
  exact { h with known := hknown }

theorem Sound.acquire (h : d.Sound) (oe : Option Entry) :
    ({ d with mux := (d.mux.acquire oe).1 } : DB).Sound :=
  h.setMux ⟨Mux.acquire_versions oe, Mux.acquire_currentVersion oe, Mux.acquire_nextCount oe,
    Mux.acquire_prepared oe⟩

theorem Sound.setRefresher (h : d.Sound) {r : Option RefreshStage}
    (hr : ∀ stage, r = some stage → stage.Ok d.mux d.created) :
    ({ d with refresher := r } : DB).Sound := { h with refresher := hr }

theorem Sound.setUpgrader (h : d.Sound) {u : Option (UpgradeCall × UpgradeStage)}
    (hu : ∀ u', u = some u' → d.mux.Placed u'.1.version ∧ u'.2.Ok d.mux u'.1.version) :
    ({ d with upgrader := u } : DB).Sound := { h with upgrader := hu }

theorem Sound.setCleaner (h : d.Sound) {c : Option CleanStage}
    (hc : ∀ stage, c = some stage → stage.Ok d.mux) :
    ({ d with cleaner := c } : DB).Sound := { h with cleaner := hc }

theorem Sound.addWaiter (h : d.Sound) {v : VersionRef} (hv : d.mux.Placed v) :
    ({ d with waiters := v :: d.waiters } : DB).Sound :=
  { h with waiters := List.forall_mem_cons.mpr ⟨hv, h.waiters⟩ }

theorem Sound.addUpgrade (h : d.Sound) (call : UpgradeCall) (hcall : d.mux.Placed call.version) :
    ({ d with upgrades := call :: d.upgrades } : DB).Sound :=
  { h with upgrades := List.forall_mem_cons.mpr ⟨hcall, h.upgrades⟩ }

theorem Sound.addRemovals (h : d.Sound) {l : List (VersionRef × Bool)}
    (hl : ∀ r ∈ l, d.mux.Stale r.1) : ({ d with removals := l ++ d.removals } : DB).Sound :=
  { h with removals := List.forall_mem_append.mpr ⟨hl, h.removals⟩ }

/-- A method of the multiplexer that may panic, but not for the reasons that are ruled out. -/
theorem Sound.attempt {r : Except Panic Mux} {go : Mux → DB} (h : d.Sound)
    (herr : ∀ p, r = .error p → ¬ p.OfVersions) (hok : ∀ m, r = .ok m → (go m).Sound) :
    (d.attempt r go).Sound := by
  cases r with
  | error p =>
    refine { h with panic := fun p' hp' => ?_ }
    obtain rfl := Option.some.inj hp'
    exact herr p rfl
  | ok m => exact hok m rfl

theorem Sound.release {v : Option VersionRef} {go : Mux → DB} (h : d.Sound)
    (hok : ∀ m, d.mux.release v = .ok m → ({ d with mux := m } : DB).Sound → (go m).Sound) :
    (d.attempt (d.mux.release v) go).Sound := by
  refine h.attempt (fun p hp hof => ?_) fun m hm => hok m hm (h.setMux (Mux.release_frame hm))
  rw [Mux.release_error hp] at hof
  exact hof

/-- `version.close` does not touch the multiplexer. -/
theorem Sound.closeVersion (h : d.Sound) (v : VersionRef) (byDB : Bool) :
    (d.closeVersion v byDB).Sound := by
  rw [DB.closeVersion]
  split
  · refine { h with panic := fun p hp hof => ?_ }
    obtain rfl := Option.some.inj hp
    exact hof
  · exact { h with }

/-! ## The holder of `refreshLock` -/

/-- A new version comes into the multiplexer. -/
theorem Sound.prepare (h : d.Sound) {v : VersionRef} {caller : SwitchCaller} {m : Mux}
    (hr : d.refresher = some (.switch v caller)) (hm : d.mux.prepare v = .ok m) :
    ({ d with mux := m, refresher := some (.select v caller) } : DB).Sound := by
  obtain ⟨habsent, hcreated, hfresh⟩ := h.refresher _ hr
  have hgrows := Mux.grows_prepare hm hfresh
  have hknown := h.known.prepare hm fun p hp heq => hfresh ⟨p.2, heq ▸ hp⟩
  obtain ⟨-, hm'⟩ := Mux.prepare_cases hm
  have hcurrent : m.currentVersion = d.mux.currentVersion := by rw [hm']
  refine { h with
    known := hknown
    current := fun e he => ?_
    prepared := fun p hp => ?_
    refresher := fun r hr' => ?_
    waiters := fun w hw => hgrows.placed w (h.waiters w hw)
    upgrades := fun call hcall => hgrows.placed _ (h.upgrades call hcall)
    upgrader := fun u hu =>
      ⟨hgrows.placed _ (h.upgrader u hu).1, (h.upgrader u hu).2.mono hcurrent⟩
    removals := fun r hr' => hgrows.stale _ (h.removals r hr')
    cleaner := fun c hc => (h.cleaner c hc).mono hgrows
    currents := ⟨h.currents.1, ?_⟩ }
  · obtain ⟨e', he', hv⟩ := h.current e (hcurrent ▸ he)
    exact ⟨e', hgrows.entries _ e' he', hv⟩
  · rw [hm'] at hp
    obtain rfl | hp := List.mem_cons.mp hp
    · exact hcreated
    · exact h.prepared p hp
  · obtain rfl := Option.some.inj hr'
    have hlookup : ∀ name, name ≠ v.name → m.versions.lookup name = d.mux.versions.lookup name := by
      intro name hname
      rw [hm']
      exact AList.lookup_insert_ne hname
    have hhas : m.Has v := ⟨⟨v, d.mux.nextCount, false, false⟩, by
      rw [hm']
      exact AList.lookup_insert _, rfl⟩
    refine ⟨⟨habsent.1.of_cons, fun name hname => ?_⟩, hknown.prepared_of_has hhas, .inl hhas⟩
    have hne : name ≠ v.name := by
      rintro rfl
      exact (List.nodup_cons.mp habsent.1).1 hname
    rw [hlookup name hne]
    exact habsent.2 name (List.mem_cons_of_mem _ hname)
  · rw [hcurrent]
    exact h.currents.2

/-- `switchVersion` returns to its caller. -/
theorem SwitchCaller.ok_resume {m : Mux} {created : List VersionRef} {caller : SwitchCaller}
    (h : m.Absent caller.rest) (ready : Bool) {r : RefreshStage}
    (hr : caller.resume ready = some r) : r.Ok m created := by
  cases caller with
  | refresh => cases hr
  | backfill rest =>
    obtain rfl := Option.some.inj hr
    cases ready with
    | true => exact ⟨List.nodup_nil, fun _ hn => absurd hn List.not_mem_nil⟩
    | false => exact h

/-- A new object, for a name that is absent. -/
theorem Sound.createVersion (h : d.Sound) {name : Bytes} {caller : SwitchCaller} (complete : Bool)
    (habsent : d.mux.Absent (name :: caller.rest)) :
    (d.createVersion name complete caller).Sound := by
  have hnew : ∀ v ∈ d.created, v ≠ ⟨d.created.length, name⟩ := by
    rintro v hv rfl
    exact absurd (h.created _ hv) (lt_irrefl _)
  refine { h with
    created := fun v hv => ?_
    prepared := fun p hp => ?_
    refresher := fun r hr => ?_ }
  · obtain rfl | hv := List.mem_cons.mp hv
    · exact Nat.lt_succ_self _
    · exact Nat.lt_succ_of_lt (h.created v hv)
  · exact List.mem_cons_of_mem _ (h.prepared p hp)
  · obtain rfl := Option.some.inj hr
    refine ⟨habsent, List.mem_cons_self, ?_⟩
    rintro ⟨g, hg⟩
    exact hnew _ (h.prepared _ hg) rfl

/-- What is listed and not in the multiplexer is kept to be tried. -/
theorem Sound.onListVersions (h : d.Sound) {names : Option (List Bytes)}
    (hs : d.onListVersions names = some d') : d'.Sound := by
  obtain ⟨r, r', hr, hlisted, rfl⟩ := DB.listed_of_onListVersions hs
  have hok := h.refresher r hr
  apply h.setRefresher
  intro stage hstage
  cases hlisted with
  | backfillEnds | refreshEnds => cases hstage
  | backfill names hlists =>
    obtain rfl := Option.some.inj hstage
    -- nothing was prepared before `backfillVersions`
    refine ⟨?_, fun name _ => hok name⟩
    exact List.nodup_reverse.mpr (hlists.1.sublist (List.drop_sublist _ _))
  | refresh after latest =>
    obtain rfl := Option.some.inj hstage
    trivial

theorem Sound.onNewVersion (h : d.Sound) {complete : Option Bool}
    (hs : d.onNewVersion complete = some d') : d'.Sound := by
  cases DB.creates_of_onNewVersion hs with
  | backfillFails hr =>
    have hok := h.refresher _ hr
    apply h.setRefresher
    intro stage hstage
    obtain rfl := Option.some.inj hstage
    exact ⟨hok.1.of_cons, fun n hn => hok.2 n (List.mem_cons_of_mem _ hn)⟩
  | refreshFails hr => exact h.setRefresher fun _ hstage => by cases hstage
  | backfill hr complete => exact h.createVersion complete (h.refresher _ hr)
  | refresh hr complete => exact h.createVersion complete (h.refresher _ hr)

/-- The holder of `refreshLock` is the one who prepares. -/
theorem Sound.refresherNext (h : d.Sound) (hs : d.refresherNext = some d') : d'.Sound := by
  cases DB.refreshes_of_refresherNext hs with
  | backfilled hr => exact { h with refresher := fun _ hstage => by cases hstage }
  | gotCurrent hr =>
    refine h.release fun m _ hm => hm.setRefresher fun stage hstage => ?_
    obtain rfl := Option.some.inj hstage
    trivial
  | @check latest hr =>
    apply (h.acquire (d.mux.versions.lookup latest)).setRefresher
    intro stage hstage
    obtain rfl := Option.some.inj hstage
    intro hnone
    -- nothing was found, so the name is free
    refine ⟨List.nodup_singleton _, fun name hname => ?_⟩
    obtain rfl := List.mem_singleton.mp hname
    rw [Mux.acquire_versions]
    rcases he : d.mux.versions.lookup name with _ | e
    · rfl
    · rw [Mux.getVersion, he] at hnone
      cases hnone
  | @gotExisting latest existing hr =>
    refine h.release fun m hm hsound => hsound.setRefresher fun stage hstage => ?_
    cases existing with
    | some v => cases hstage
    | none =>
      obtain rfl := Option.some.inj hstage
      obtain rfl := Except.ok.inj hm
      exact h.refresher _ hr rfl
  | @switch v caller hr =>
    refine h.attempt (fun p hp => ?_) fun m hm => h.prepare hr hm
    rw [Mux.prepare, (h.refresher _ hr).1.2 v.name List.mem_cons_self] at hp
    cases hp
  | @selectReady v caller hr =>
    have hok := h.refresher _ hr
    apply (h.addUpgrade ⟨v, true⟩ hok.2).setRefresher
    intro stage hstage
    obtain rfl := Option.some.inj hstage
    exact hok.1
  | selectWaits hr =>
    have hok := h.refresher _ hr
    exact (h.addWaiter hok.2).setRefresher fun stage hstage =>
      SwitchCaller.ok_resume hok.1 false hstage
  | closed hr => exact h.setRefresher fun _ hstage => by cases hstage
  | @close v vs hr =>
    apply (h.closeVersion v true).setRefresher
    intro stage hstage
    obtain rfl := Option.some.inj hstage
    trivial

/-! ## The holder of `upgradeLock` -/

theorem Sound.upgradeReturns (h : d.Sound) (call : UpgradeCall) :
    (d.upgradeReturns call).Sound := by
  refine { h with upgrader := (fun _ hu => by cases hu), refresher := fun stage hstage => ?_ }
  simp only [DB.upgradeReturns] at hstage
  split at hstage
  · rcases hr : d.refresher with _ | r
    · rw [hr] at hstage
      cases hstage
    · have hok := h.refresher r hr
      rw [hr] at hstage
      cases r with
      | upgrade v caller => exact SwitchCaller.ok_resume hok true hstage
      | _ =>
        obtain rfl := Option.some.inj hstage
        exact hok
  · exact h.refresher stage hstage

/-- A version becomes current. -/
theorem Sound.upgrade (h : d.Sound) {call : UpgradeCall} {current : Option VersionRef} {m : Mux}
    (hu : d.upgrader = some (call, .switch current)) (hm : d.mux.upgrade call.version = .ok m) :
    ({ d with
      mux := m
      upgrader := some (call, .sweep current)
      currents := call.version.name :: d.currents } : DB).Sound := by
  obtain ⟨hplaced, hcurrent, hnot, hne⟩ := h.upgrader _ hu
  have hadv := Mux.advances_upgrade hm hnot
  have hknown := h.known.upgrade hm
  obtain ⟨e, he, hversion, hm'⟩ := Mux.upgrade_cases hm
  -- the old current version has a smaller name: its pointer differs, and each name has one
  have hlt : ∀ c, current = some c → c.name < call.version.name := by
    rintro c rfl
    obtain ⟨old, hold, rfl⟩ := Option.map_eq_some_iff.mp hcurrent.symm
    refine lt_of_le_of_ne (not_lt.mp fun hlt => hnot ⟨old, hold, hlt⟩) fun heq => ?_
    obtain ⟨e', he', hold'⟩ := h.current old hold
    rw [heq, he] at he'
    obtain rfl := Option.some.inj he'
    exact hne (congrArg some (hold'.symm.trans hversion))
  have hshrinks : d.mux.Shrinks m := ⟨hadv, by rw [hm']; exact fun _ h => h, by rw [hm']⟩
  have hgrows : d.mux.Grows m :=
    ⟨hadv, by rw [hm']; exact fun _ _ h => h, by rw [hm']; exact fun _ h => h, by
      rw [hm']
      exact fun _ _ h => h⟩
  refine { h with
    known := hknown
    current := fun e' he' => ?_
    prepared := by rw [hm']; exact h.prepared
    refresher := fun r hr => (h.refresher r hr).mono hshrinks
    waiters := fun w hw => hadv.placed w (h.waiters w hw)
    upgrades := fun c hc => hadv.placed _ (h.upgrades c hc)
    upgrader := fun u hu' => ?_
    removals := fun r hr => hadv.stale _ (h.removals r hr)
    cleaner := fun c hc => (h.cleaner c hc).mono hgrows
    currents := ⟨List.pairwise_cons.mpr ⟨fun name hname => ?_, h.currents.1⟩, ?_⟩ }
  · rw [hm'] at he' ⊢
    obtain rfl := Option.some.inj he'
    exact ⟨e, by rwa [hversion], rfl⟩
  · obtain rfl := Option.some.inj hu'
    refine ⟨hadv.placed _ hplaced, ?_, hlt⟩
    rw [hm', Option.map_some, hversion]
  · -- the last name is the old current version's, and the earlier ones are smaller still
    obtain ⟨hsorted, hhead⟩ := h.currents
    rcases hnames : d.currents with _ | ⟨last, earlier⟩
    · rw [hnames] at hname
      cases hname
    · rw [hnames] at hname hsorted hhead
      obtain ⟨old, hold, rfl⟩ := Option.map_eq_some_iff.mp hhead.symm
      have hlast : old.version.name < call.version.name :=
        hlt old.version (by rw [hcurrent, hold, Option.map_some])
      obtain rfl | hname := List.mem_cons.mp hname
      · exact hlast
      · exact lt_trans (List.rel_of_pairwise_cons hsorted hname) hlast
  · rw [hm', Option.map_some, hversion]
    rfl

/-- What `upgrade` finds that is older is stale. -/
theorem Sound.stale_of_mem_swept (h : d.Sound) {call : UpgradeCall} {current : Option VersionRef}
    (hu : d.upgrader = some (call, .sweep current)) {order : IterOrder (Σ _ : Bytes, Entry)}
    {r : VersionRef × Bool} (hr : r ∈ swept current call.version (d.mux.getAll order)) :
    d.mux.Stale r.1 := by
  obtain ⟨-, hcurrent, hlt⟩ := h.upgrader _ hu
  obtain ⟨e, he, hversion⟩ := Option.map_eq_some_iff.mp hcurrent
  obtain ⟨old, hold, hr⟩ := List.mem_filterMap.mp hr
  have hprepared := h.known.prepared_of_has (h.known.has_of_mem_getAll hold)
  split_ifs at hr with hcur hname
  · obtain rfl := Option.some.inj hr
    exact ⟨hprepared, e, he, hversion ▸ hlt old hcur.symm⟩
  · obtain rfl := Option.some.inj hr
    exact ⟨hprepared, e, he, hversion ▸ hname⟩

/-- The holder of `upgradeLock` is the one who makes current, after a look at what is. -/
theorem Sound.upgraderNext (h : d.Sound) {order : IterOrder (Σ _ : Bytes, Entry)}
    (hs : d.upgraderNext order = some d') : d'.Sound := by
  cases upgrades_of_upgraderNext hs with
  | @outdated call current hu hold =>
    refine h.release fun m _ hm => Sound.upgradeReturns
      (hm.addRemovals (l := [(call.version, false)]) fun r hr => ?_) call
    obtain ⟨hplaced, hok⟩ := hm.upgrader _ hu
    obtain rfl := List.mem_singleton.mp hr
    obtain ⟨c, hc, hlt⟩ := hold
    rw [Option.mem_def, show current = m.currentVersion.map Entry.version from hok] at hc
    obtain ⟨e, he, rfl⟩ := Option.map_eq_some_iff.mp hc
    exact ⟨hplaced.1, e, he, hlt⟩
  | @same call current hu hsame => exact h.release fun m _ hm => hm.upgradeReturns call
  | @newer call current hu hold hsame =>
    refine h.release fun m _ hm => hm.setUpgrader fun u hu' => ?_
    obtain ⟨hplaced, hok⟩ := hm.upgrader _ hu
    obtain rfl := Option.some.inj hu'
    refine ⟨hplaced, hok, ?_, hsame⟩
    rintro ⟨e, he, hlt⟩
    refine hold ⟨e.version, ?_, hlt⟩
    rw [Option.mem_def, show current = m.currentVersion.map Entry.version from hok,
      show m.currentVersion = some e from he, Option.map_some]
  | @switch call current hu =>
    refine h.attempt (fun p hp => ?_) fun m hm => h.upgrade hu hm
    -- not outdated, hence in the multiplexer under its own pointer
    obtain ⟨hplaced, hok⟩ := h.upgrader _ hu
    obtain ⟨e, he, hversion⟩ := hplaced.2.resolve_right hok.2.1
    rw [Mux.upgrade, Mux.mustGet_eq_ok.mpr ⟨he, hversion⟩] at hp
    cases hp
  | @sweep call current hu =>
    exact Sound.upgradeReturns (h.addRemovals fun r hr => h.stale_of_mem_swept hu hr) call

/-! ## The holder of `cleanupLock` -/

/-- The multiplexer loses an entry, or gets a copy of one. -/
theorem Sound.shrink (h : d.Sound) {m : Mux} {c : CleanStage} (hm : d.mux.Shrinks m)
    (hknown : m.Known) (hcur : m.currentVersion = d.mux.currentVersion) (hc : c.Ok m) :
    ({ d with mux := m, cleaner := some c } : DB).Sound where
  known := hknown
  current := by
    -- the current version stays, since it is not older than itself
    intro e he
    have hhas := h.current e (hcur ▸ he)
    refine (hm.placed _ ⟨h.known.prepared_of_has hhas, .inl hhas⟩).2.resolve_right ?_
    rintro ⟨e', he', hlt⟩
    obtain rfl := Option.some.inj (he.symm.trans he')
    exact lt_irrefl _ hlt
  created := h.created
  prepared := by rw [hm.history]; exact h.prepared
  refresher := fun r hr => (h.refresher r hr).mono hm
  waiters := fun v hv => hm.placed v (h.waiters v hv)
  upgrades := fun call hcall => hm.placed _ (h.upgrades call hcall)
  upgrader := fun u hu => ⟨hm.placed _ (h.upgrader u hu).1, (h.upgrader u hu).2.mono hcur⟩
  removals := fun r hr => hm.stale _ (h.removals r hr)
  cleaner := fun stage hstage => by
    obtain rfl := Option.some.inj hstage
    exact hc
  currents := by rw [hcur]; exact h.currents
  panic := h.panic

theorem Sound.advance (h : d.Sound) {call : RemoveCall} (hc : d.cleaner = some (.remove call))
    {m : Mux} {stage : RemoveStage} (hm : call.advance d.mux = .next m stage) :
    ({ d with mux := m, cleaner := some (.remove { call with stage := stage }) } : DB).Sound := by
  obtain ⟨hstale, hok⟩ := h.cleaner _ hc
  obtain ⟨vs, hstage, hlook, rfl, hnext⟩ | ⟨vs, hstage, rfl, rfl⟩ | ⟨vs, hstage, rfl, rfl⟩ |
    ⟨vs, hstage, rfl, rfl⟩ := RemoveCall.advance_next hm
  · apply h.setCleaner
    intro c hc'
    obtain rfl := Option.some.inj hc'
    obtain rfl | rfl := hnext
    · exact ⟨hstale, vs, hlook, rfl⟩
    · exact ⟨hstale, vs, hlook, rfl⟩
  · rw [hstage] at hok
    obtain ⟨e', he', hpair⟩ := hok
    obtain ⟨hname, hprepared⟩ := h.known.copy he' hpair
    have hshrinks := Mux.shrinks_armTimer (e := { vs with closeTimer := true }) he' hpair
    exact h.shrink hshrinks (h.known.armTimer hname hprepared) rfl
      ⟨hshrinks.stale _ hstale, _, AList.lookup_insert _, rfl⟩
  · rw [hstage] at hok
    apply h.setCleaner
    intro c hc'
    obtain rfl := Option.some.inj hc'
    exact ⟨hstale, hok⟩
  · rw [hstage] at hok
    obtain ⟨e', he', hpair⟩ := hok
    obtain ⟨hname, hprepared⟩ := h.known.copy he' hpair
    have hshrinks := Mux.shrinks_delete hstale.2
    exact h.shrink hshrinks (h.known.delete _) rfl
      ⟨hshrinks.stale _ hstale, hprepared, Mux.not_has_delete hname, Mux.not_has_delete rfl⟩

/-- The holder of `cleanupLock` is the one who deletes, and only what is stale. -/
theorem Sound.cleanerNext (h : d.Sound) (hs : d.cleanerNext = some d') : d'.Sound := by
  cases DB.cleans_of_cleanerNext hs with
  | next hc hm => exact h.advance hc hm
  | returnsNil | cleaned => exact h.setCleaner fun _ hstage => by cases hstage
  | returnsVersion hc hm =>
    apply h.setCleaner
    intro c hc'
    obtain rfl := Option.some.inj hc'
    obtain ⟨vs, hstage⟩ := RemoveCall.advance_returnsVersion hm
    obtain ⟨hstale, hok⟩ := h.cleaner _ hc
    rw [hstage.1] at hok
    exact ⟨hstale.1, hok.2.2⟩
  | @close v hc => exact (h.closeVersion v false).setCleaner fun _ hstage => by cases hstage
  | @loop dir dirs hc =>
    apply (h.acquire (d.mux.versions.lookup dir)).setCleaner
    intro c hc'
    obtain rfl := Option.some.inj hc'
    trivial
  | @gotVersion dir v dirs hc =>
    refine h.release fun m _ hm => hm.setCleaner fun c hc' => ?_
    obtain rfl := Option.some.inj hc'
    cases v with
    | none => trivial
    | some v => trivial
  | clear hc =>
    apply h.setCleaner
    intro c hc'
    obtain rfl := Option.some.inj hc'
    trivial

/-! ## Every event -/

/-- **Every event keeps the invariant.** -/
theorem Sound.act (h : d.Sound) {peers : Bool} {e : DBEvent} (hs : d.act peers e = some d') :
    d'.Sound := by
  cases acts_of_act hs with
  | getCurrent => exact { h.acquire d.mux.currentVersion with }
  | getVersion name => exact { h.acquire (d.mux.versions.lookup name) with }
  | release hv => exact h.release fun m _ hm => { hm with }
  | partitionsReady hv => exact { h with }
  | ready hv hnew hdone => exact { h with }
  | @wake v hv hready =>
    refine { h.addUpgrade ⟨v, false⟩ (h.waiters v hv) with waiters := fun w hw => ?_ }
    exact h.waiters w (List.mem_of_mem_erase hw)
  | refresh hnone =>
    apply (h.acquire d.mux.currentVersion).setRefresher
    intro stage hstage
    obtain rfl := Option.some.inj hstage
    trivial
  | close hnone order =>
    apply h.setRefresher
    intro stage hstage
    obtain rfl := Option.some.inj hstage
    trivial
  | listVersions hs => exact h.onListVersions hs
  | newVersion hs => exact h.onNewVersion hs
  | refresherNext hs => exact h.refresherNext hs
  | @upgrade call hcall hnone =>
    have hacq := h.acquire d.mux.currentVersion
    refine { hacq with upgrades := fun c hc => ?_, upgrader := fun u hu => ?_ }
    · exact hacq.upgrades c (List.mem_of_mem_erase hc)
    · obtain rfl := Option.some.inj hu
      refine ⟨hacq.upgrades call hcall, ?_⟩
      change (d.mux.acquire d.mux.currentVersion).2 =
        (d.mux.acquire d.mux.currentVersion).1.currentVersion.map Entry.version
      rw [Mux.acquire_currentVersion]
      cases d.mux.currentVersion <;> rfl
  | upgraderNext hs => exact h.upgraderNext hs
  | @remove removal hremoval hnone =>
    refine { h with removals := fun r hr => ?_, cleaner := fun c hc => ?_ }
    · exact h.removals r (List.mem_of_mem_erase hr)
    · obtain rfl := Option.some.inj hc
      exact ⟨h.removals removal hremoval, trivial⟩
  | cleanup hdue hnone dirs =>
    refine { h with cleaner := fun c hc => ?_ }
    obtain rfl := Option.some.inj hc
    trivial
  | cleanerNext hs => exact h.cleanerNext hs

theorem sound_of_reachable {peers : Bool} (h : (dbMachine peers).Reachable d) : d.Sound := by
  refine h.invariant (fun _ hs => hs ▸ sound_new) fun s e s' _ hsound hs => ?_
  change DB.step peers s e = some s' at hs
  rw [DB.step] at hs
  split at hs
  · exact hsound.act hs
  · cases hs

end DB

/-- **Roll-forward.** In every state of every run of a db: the names of its current versions,
latest first, go strictly down; the current version is in the multiplexer under its own
pointer; whatever is being removed or is going to be has a smaller name; and neither
`prepare` nor `mustGet` has panicked. -/
theorem rolls_forward {peers : Bool} {d : DB} (h : (dbMachine peers).Reachable d) :
    (d.currents.Pairwise (· > ·) ∧
      d.currents.head? = d.mux.currentVersion.map fun e => e.version.name) ∧
    (∀ e, d.mux.currentVersion = some e →
      (∃ e', d.mux.versions.lookup e.version.name = some e' ∧ e'.version = e.version) ∧
      (∀ r ∈ d.removals, r.1.name < e.version.name) ∧
      (∀ call, d.cleaner = some (.remove call) → call.version.name < e.version.name) ∧
      d.cleaner ≠ some (.close e.version)) ∧
    ∀ name, d.panic ≠ some (.alreadyPrepared name) ∧ d.panic ≠ some (.doesNotExist name) ∧
      d.panic ≠ some (.anotherReference name) := by
  have hsound := DB.sound_of_reachable h
  refine ⟨hsound.currents,
    fun e he => ⟨hsound.current e he, fun r hr => ?_, fun call hc => ?_, fun hc => ?_⟩,
    fun name => ⟨fun hp => ?_, fun hp => ?_, fun hp => ?_⟩⟩
  · obtain ⟨-, e', he', hlt⟩ := hsound.removals r hr
    obtain rfl := Option.some.inj (he.symm.trans he')
    exact hlt
  · obtain ⟨⟨-, e', he', hlt⟩, -⟩ := hsound.cleaner _ hc
    obtain rfl := Option.some.inj (he.symm.trans he')
    exact hlt
  · exact (hsound.cleaner _ hc).2 (hsound.current e he)
  · exact hsound.panic _ hp trivial
  · exact hsound.panic _ hp trivial
  · exact hsound.panic _ hp trivial

/-- `switchVersion` of a complete version, up to the return of its call of `upgrade`. -/
def switchesTo (v : VersionRef) : List DBEvent :=
  [.newVersion (some true), .refresherNext, .refresherNext, .upgrade ⟨v, true⟩,
    .upgraderNext (.stored _), .upgraderNext (.stored _), .upgraderNext (.stored _)]

/-- A db comes up with version `1` and refreshes to version `2`. -/
def refreshesOnce : List DBEvent :=
  [.listVersions (some [[49]])] ++ switchesTo ⟨0, [49]⟩ ++
    [.refresherNext, .refresh, .refresherNext, .listVersions (some [[50]]), .refresherNext,
      .refresherNext] ++ switchesTo ⟨1, [50]⟩

/-- The removal of version `1` is scheduled when version `2` is current. -/
theorem rolls_forward_refreshesOnce :
    ∃ d, (dbMachine true).Reachable d ∧ d.currents = [[50], [49]] ∧
      d.removals = [(⟨0, [49]⟩, true)] ∧ d.currents.Pairwise (· > ·) :=
  have hreach : (dbMachine true).Reachable _ := .run (.start rfl) refreshesOnce rfl
  ⟨_, hreach, by decide, by decide, (rolls_forward hreach).1.1⟩

end Sequins
