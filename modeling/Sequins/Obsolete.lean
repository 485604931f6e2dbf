import Sequins.RollForward

/-!
# Obsolete versions

A version that is older than the current one should be on its way out. `upgrade` sees to that: it
removes what it finds in the multiplexer when it has switched, and a version that turns out to be
older when it is ready is removed instead of switched to. A version that is prepared after the
sweep of a newer one, and is not ready yet, is in neither's sight: it stays until it becomes ready.

`Accounted` says what may be on its way for a version, and `DB.Tracked` that it is for all
obsolete ones, in runs in which no version is prepared too late (`PreparedInTime`).
-/

namespace Sequins

/-- Before it removes the older versions. -/
def UpgradeStage.isSweep : UpgradeStage → Bool
  | .sweep _ => true
  | _ => false

namespace DB

/-- A removal of the version is scheduled or running. -/
def Removing (d : DB) (v : VersionRef) : Prop :=
  (∃ shouldWait, (v, shouldWait) ∈ d.removals) ∨
    ∃ call, d.cleaner = some (.remove call) ∧ call.version = v

/-- A call of `upgrade` for the version is pending: it waits for its lock, has just taken it, or
is the next thing `switchVersion`, or the goroutine it started, will do. -/
def Due (d : DB) (v : VersionRef) : Prop :=
  (∃ call ∈ d.upgrades, call.version = v) ∨
    (∃ call current, d.upgrader = some (call, .gotCurrent current) ∧ call.version = v) ∨
    v ∈ d.ready ∧ (v ∈ d.waiters ∨ ∃ caller, d.refresher = some (.select v caller))

/-- `upgrade` is about to remove the older versions. -/
def Sweeping (d : DB) : Prop := d.upgrader.any (fun u => u.2.isSweep) = true

/-- Something is going to remove the version, if it is obsolete. -/
def Accounted (d : DB) (v : VersionRef) : Prop := d.Removing v ∨ d.Due v ∨ d.Sweeping

/-- No call of `upgrade` is pending. -/
structure Quiet (d : DB) : Prop where
  /-- none waits for the lock -/
  upgrades : d.upgrades = []
  /-- none has the lock -/
  upgrader : d.upgrader = none
  /-- none is the next thing a goroutine does -/
  waiters : ∀ v ∈ d.waiters, v ∉ d.ready
  /-- or `switchVersion` -/
  refresher : ∀ v caller, d.refresher = some (.select v caller) → v ∉ d.ready

/-- No version is prepared too late: when it is, it is ready, the current version is not greater,
or the sweep of a greater version is still to come. -/
def PreparedInTime (d : DB) : DBEvent → Prop
  | .refresherNext =>
    match d.refresher with
    | some (.switch v _) =>
      v ∈ d.ready ∨ (∀ e ∈ d.mux.currentVersion, ¬ v.name < e.version.name) ∨ d.Sweeping
    | _ => True
  | _ => True

instance (d : DB) : Decidable d.Sweeping := inferInstanceAs (Decidable (_ = _))

instance (d : DB) : DecidablePred d.PreparedInTime := by
  intro e
  unfold PreparedInTime
  split
  · split
    · infer_instance
    · infer_instance
  · infer_instance

/-- Every obsolete version is accounted for. -/
structure Tracked (d : DB) : Prop where
  /-- the obsolete versions -/
  accounted : ∀ v, d.mux.Has v → d.mux.Outdated v → d.Accounted v
  /-- entries that are marked belong to the running removal -/
  marked : ∀ name e, d.mux.versions.lookup name = some e → e.removing = true →
    ∃ call, d.cleaner = some (.remove call) ∧ call.version.name = name ∧
      ∃ vs, call.stage = .armed vs ∨ call.stage = .expired vs

variable {d d' : DB} {v : VersionRef}

/-! ## What keeps a version accounted for

Most steps leave everything alone that a version may be accounted for by. These are rules for
such steps, by what the step changes. -/

/-- A change after which removals still run and calls of `upgrade` are still pending. -/
theorem Accounted.mono (h : d.Accounted v) (hremovals : d.removals ⊆ d'.removals)
    (hcleaner : ∀ call, d.cleaner = some (.remove call) →
      ∃ call', d'.cleaner = some (.remove call') ∧ call'.version = call.version)
    (hupgrades : d.upgrades ⊆ d'.upgrades) (hupgrader : d'.upgrader = d.upgrader)
    (hready : v ∈ d.ready → (v ∈ d.waiters ∨ ∃ caller, d.refresher = some (.select v caller)) →
      d'.Due v) : d'.Accounted v := by
  obtain (⟨shouldWait, hmem⟩ | ⟨call, hcall, rfl⟩) | (hdue | hdue | ⟨hr, hdue⟩) | hsweep := h
  · exact .inl (.inl ⟨shouldWait, hremovals hmem⟩)
  · exact .inl (.inr (hcleaner call hcall))
  · obtain ⟨call, hcall, hv⟩ := hdue
    exact .inr (.inl (.inl ⟨call, hupgrades hcall, hv⟩))
  · exact .inr (.inl (.inr (.inl (by rwa [hupgrader]))))
  · exact .inr (.inl (hready hr hdue))
  · exact .inr (.inr (by rwa [Sweeping, hupgrader]))

/-- A change that leaves the map, the current version and the removals alone, and nothing
unaccounted for. -/
theorem Tracked.mono (h : d.Tracked) (hversions : d'.mux.versions = d.mux.versions)
    (hcurrent : d'.mux.currentVersion = d.mux.currentVersion)
    (hcleaner : ∀ call, d.cleaner = some (.remove call) → d'.cleaner = some (.remove call))
    (haccounted : ∀ v, d.Accounted v → d'.Accounted v) : d'.Tracked where
  accounted := by
    intro v hv hout
    rw [Mux.Has, hversions] at hv
    rw [Mux.Outdated, hcurrent] at hout
    exact haccounted v (h.accounted v hv hout)
  marked := by
    intro name e he hremoving
    rw [hversions] at he
    obtain ⟨call, hcall, hrest⟩ := h.marked name e he hremoving
    exact ⟨call, hcleaner call hcall, hrest⟩

/-- The same, if no call of `upgrade` takes a step. -/
theorem Tracked.frame (h : d.Tracked) (hversions : d'.mux.versions = d.mux.versions)
    (hcurrent : d'.mux.currentVersion = d.mux.currentVersion)
    (hremovals : d'.removals = d.removals)
    (hcleaner : ∀ call, d.cleaner = some (.remove call) → d'.cleaner = some (.remove call))
    (hupgrades : d'.upgrades = d.upgrades) (hupgrader : d'.upgrader = d.upgrader)
    (hready : d.ready ⊆ d'.ready) (hwaiters : d'.waiters = d.waiters)
    (hselect : ∀ w caller, d.refresher = some (.select w caller) →
      d'.refresher = some (.select w caller)) : d'.Tracked :=
  h.mono hversions hcurrent hcleaner fun _ hv =>
    hv.mono (fun _ hr => hremovals ▸ hr) (fun call hcall => ⟨call, hcleaner call hcall, rfl⟩)
      (fun _ hc => hupgrades ▸ hc) hupgrader fun hr hdue => .inr (.inr ⟨hready hr,
        hdue.imp (fun hw => hwaiters ▸ hw) fun ⟨caller, hs⟩ => ⟨caller, hselect _ caller hs⟩⟩)

/-- A step of the holder of `refreshLock` that only goes on. -/
theorem Tracked.setRefresher (h : d.Tracked) {r : Option RefreshStage}
    (hr : ∀ w caller, d.refresher ≠ some (.select w caller)) :
    ({ d with refresher := r } : DB).Tracked :=
  h.frame rfl rfl rfl (fun _ hc => hc) rfl rfl (fun _ hv => hv) rfl
    fun w caller hs => absurd hs (hr w caller)

/-- Counting references changes neither the map nor what is current. -/
theorem Tracked.setMux (h : d.Tracked) {m : Mux} (hversions : m.versions = d.mux.versions)
    (hcurrent : m.currentVersion = d.mux.currentVersion) : ({ d with mux := m } : DB).Tracked :=
  h.frame hversions hcurrent rfl (fun _ hc => hc) rfl rfl (fun _ hv => hv) rfl fun _ _ hs => hs

theorem Tracked.attempt {r : Except Panic Mux} {go : Mux → DB} (h : d.Tracked)
    (hok : ∀ m, r = .ok m → (go m).Tracked) : (d.attempt r go).Tracked := by
  cases r with
  | error p => exact { h with }
  | ok m => exact hok m rfl

theorem Tracked.release {v : Option VersionRef} {go : Mux → DB} (h : d.Tracked)
    (hok : ∀ m, m.currentVersion = d.mux.currentVersion → ({ d with mux := m } : DB).Tracked →
      (go m).Tracked) :
    (d.attempt (d.mux.release v) go).Tracked := by
  refine h.attempt fun m hm => ?_
  obtain ⟨hversions, hcurrent, -, -⟩ := Mux.release_frame hm
  exact hok m hcurrent (h.setMux hversions hcurrent)

/-- Closing a version does not take it out of the multiplexer. -/
theorem Tracked.closeVersion (h : d.Tracked) (v : VersionRef) (byDB : Bool) :
    (d.closeVersion v byDB).Tracked := by
  rw [DB.closeVersion]
  split
  · exact { h with }
  · exact { h with }

/-! ## The holder of `refreshLock` -/

/-- A version is prepared in time. -/
theorem Tracked.prepare (h : d.Tracked) {caller : SwitchCaller} {m : Mux}
    (hr : d.refresher = some (.switch v caller)) (hm : d.mux.prepare v = .ok m)
    (htime : d.PreparedInTime .refresherNext) :
    ({ d with mux := m, refresher := some (.select v caller) } : DB).Tracked := by
  obtain ⟨hnone, rfl⟩ := Mux.prepare_cases hm
  have haccounted : ∀ w, d.Accounted w →
      ({ d with
        mux := { d.mux with
          versions := d.mux.versions.insert v.name ⟨v, d.mux.nextCount, false, false⟩
          counts := Function.update d.mux.counts d.mux.nextCount 0
          nextCount := d.mux.nextCount + 1
          prepared := (v, d.mux.nextCount) :: d.mux.prepared }
        refresher := some (.select v caller) } : DB).Accounted w := by
    intro w hw
    refine hw.mono (fun _ hr => hr) (fun call hcall => ⟨call, hcall, rfl⟩) (fun _ hc => hc) rfl
      fun hready hdue => .inr (.inr ⟨hready, hdue.imp_right fun ⟨caller', hs⟩ => ?_⟩)
    rw [hr] at hs
    cases hs
  refine ⟨fun w hw hout => ?_, fun name e he hremoving => ?_⟩
  · obtain ⟨e, he, hew⟩ := hw
    obtain ⟨hname, rfl⟩ | ⟨-, he⟩ := AList.lookup_insert_eq_some he
    · obtain rfl : v = w := hew
      simp only [PreparedInTime, hr] at htime
      obtain hready | hcurrent | hsweep := htime
      · exact .inr (.inl (.inr (.inr ⟨hready, .inr ⟨caller, rfl⟩⟩)))
      · obtain ⟨c, hc, hlt⟩ := hout
        exact absurd hlt (hcurrent c hc)
      · exact .inr (.inr hsweep)
    · exact haccounted w (h.accounted w ⟨e, he, hew⟩ hout)
  · obtain ⟨-, rfl⟩ | ⟨-, he⟩ := AList.lookup_insert_eq_some he
    · cases hremoving
    · exact h.marked name e he hremoving

/-- A version is prepared in time, by the condition; anything else only goes on. -/
theorem Tracked.refresherNext (h : d.Tracked) (hs : d.refresherNext = some d')
    (htime : d.PreparedInTime .refresherNext) : d'.Tracked := by
  cases DB.refreshes_of_refresherNext hs with
  | backfilled hr =>
    have hstep := h.setRefresher (r := none) fun w caller hs => by rw [hr] at hs; cases hs
    exact { hstep with }
  | gotCurrent hr =>
    refine h.release fun m _ hm => hm.setRefresher fun w caller hs => ?_
    rw [hr] at hs
    cases hs
  | @check latest hr =>
    refine (h.setMux (Mux.acquire_versions (d.mux.versions.lookup latest))
      (Mux.acquire_currentVersion _)).setRefresher fun w caller hs => ?_
    rw [hr] at hs
    cases hs
  | gotExisting hr =>
    refine h.release fun m _ hm => hm.setRefresher fun w caller hs => ?_
    rw [hr] at hs
    cases hs
  | switch hr => exact h.attempt fun m hm => h.prepare hr hm htime
  | @selectReady v caller hr hready =>
    refine h.mono rfl rfl (fun _ hc => hc) fun w hw => ?_
    refine hw.mono (fun _ hr => hr) (fun call hcall => ⟨call, hcall, rfl⟩)
      (List.subset_cons_self _ _) rfl fun hwready hdue => ?_
    obtain hwait | ⟨caller', hs⟩ := hdue
    · exact .inr (.inr ⟨hwready, .inl hwait⟩)
    · rw [hr] at hs
      cases hs
      exact .inl ⟨⟨v, true⟩, List.mem_cons_self .., rfl⟩
  | @selectWaits v caller hr =>
    refine h.mono rfl rfl (fun _ hc => hc) fun w hw => ?_
    refine hw.mono (fun _ hr => hr) (fun call hcall => ⟨call, hcall, rfl⟩) (fun _ hc => hc) rfl
      fun hwready hdue => .inr (.inr ⟨hwready, .inl ?_⟩)
    obtain hwait | ⟨caller', hs⟩ := hdue
    · exact List.mem_cons_of_mem _ hwait
    · rw [hr] at hs
      cases hs
      exact List.mem_cons_self ..
  | closed hr =>
    refine h.setRefresher fun w caller hs => ?_
    rw [hr] at hs
    cases hs
  | @close v vs hr =>
    refine (h.closeVersion v true).setRefresher fun w caller hs => ?_
    rw [DB.closeVersion] at hs
    split at hs
    · rw [hr] at hs
      cases hs
    · rw [hr] at hs
      cases hs

theorem Tracked.createVersion (h : d.Tracked)
    (hr : ∀ w caller, d.refresher ≠ some (.select w caller)) (name : Bytes) (complete : Bool)
    (caller : SwitchCaller) : (d.createVersion name complete caller).Tracked := by
  refine h.frame rfl rfl rfl (fun _ hc => hc) rfl rfl ?_ rfl fun w caller hs =>
    absurd hs (hr w caller)
  change d.ready ⊆ if complete then insert _ d.ready else d.ready
  split
  · exact Finset.subset_insert _ _
  · exact fun _ hv => hv

/-! ## The holder of `upgradeLock`

Here the account changes hands: from the call of `upgrade` that is due to the sweep that it has
before it, and from there to the removals. -/

/-- A call of `upgrade` returns, with its version accounted for. -/
theorem Tracked.upgradeReturns {call : UpgradeCall}
    (hmarked : ∀ name e, d.mux.versions.lookup name = some e → e.removing = true →
      ∃ call, d.cleaner = some (.remove call) ∧ call.version.name = name ∧
        ∃ vs, call.stage = .armed vs ∨ call.stage = .expired vs)
    (hall : ∀ v, d.mux.Has v → d.mux.Outdated v → d.Removing v ∨
      (∃ call ∈ d.upgrades, call.version = v) ∨
      v ∈ d.ready ∧ (v ∈ d.waiters ∨ ∃ caller, d.refresher = some (.select v caller))) :
    (d.upgradeReturns call).Tracked := by
  refine ⟨fun v hv hout => ?_, hmarked⟩
  obtain hremoving | hupgrade | ⟨hready, hdue⟩ := hall v hv hout
  · exact .inl hremoving
  · exact .inr (.inl (.inl hupgrade))
  · refine .inr (.inl (.inr (.inr ⟨hready, hdue.imp_right ?_⟩)))
    rintro ⟨caller, hs⟩
    refine ⟨caller, ?_⟩
    simp only [DB.upgradeReturns, hs, ite_self]

/-- What an obsolete version is accounted for by while a call of `upgrade` looks at the current
version. -/
theorem Tracked.of_gotCurrent (h : d.Tracked) {call : UpgradeCall} {current : Option VersionRef}
    (hu : d.upgrader = some (call, .gotCurrent current)) (hv : d.mux.Has v)
    (hout : d.mux.Outdated v) : v = call.version ∨ d.Removing v ∨
      (∃ call ∈ d.upgrades, call.version = v) ∨
      v ∈ d.ready ∧ (v ∈ d.waiters ∨ ∃ caller, d.refresher = some (.select v caller)) := by
  obtain hremoving | (hupgrade | ⟨call', current', hu', hv'⟩ | hready) | hsweep :=
    h.accounted v hv hout
  · exact .inr (.inl hremoving)
  · exact .inr (.inr (.inl hupgrade))
  · rw [hu] at hu'
    cases hu'
    exact .inl hv'.symm
  · exact .inr (.inr (.inr hready))
  · rw [Sweeping, hu] at hsweep
    cases hsweep

/-- The sweep finds every obsolete version. -/
theorem mem_swept {m : Mux} (current : Option VersionRef) {w : VersionRef} (hv : m.Has v)
    (hlt : v.name < w.name) (order : IterOrder (Σ _ : Bytes, Entry)) :
    ∃ shouldWait, (v, shouldWait) ∈ swept current w (m.getAll order) := by
  have hall := Mux.mem_getAll_of_has order hv
  by_cases hcurrent : some v = current
  · exact ⟨true, List.mem_filterMap.mpr ⟨v, hall, if_pos hcurrent⟩⟩
  · refine ⟨false, List.mem_filterMap.mpr ⟨v, hall, ?_⟩⟩
    rw [if_neg hcurrent, if_pos hlt]

/-- **A step of `upgrade`.** What becomes obsolete by it is found by its own sweep. -/
theorem Tracked.upgraderNext (h : d.Tracked) (hsound : d.Sound)
    {order : IterOrder (Σ _ : Bytes, Entry)} (hs : d.upgraderNext order = some d') :
    d'.Tracked := by
  -- while `upgrade` looks at it, the current version stays
  have hcur : ∀ {call current} {m : Mux}, d.upgrader = some (call, .gotCurrent current) →
      m.currentVersion = d.mux.currentVersion → current = m.currentVersion.map Entry.version := by
    intro call current m hu hcurrent
    rw [hcurrent]
    exact (hsound.upgrader _ hu).2
  cases upgrades_of_upgraderNext hs with
  | outdated hu hold =>
    -- the version is out of date, and its removal is started
    refine h.release fun m _ hm => Tracked.upgradeReturns hm.marked fun v hv hout => ?_
    obtain rfl | (⟨shouldWait, hr⟩ | hrunning) | hdue := hm.of_gotCurrent hu hv hout
    · exact .inl (.inl ⟨false, List.mem_cons_self ..⟩)
    · exact .inl (.inl ⟨shouldWait, List.mem_cons_of_mem _ hr⟩)
    · exact .inl (.inr hrunning)
    · exact .inr hdue
  | same hu hsame =>
    refine h.release fun m hcurrent hm => Tracked.upgradeReturns hm.marked fun v hv hout => ?_
    obtain rfl | haccounted := hm.of_gotCurrent hu hv hout
    · -- the current version is not older than itself
      obtain ⟨e, he, hlt⟩ := hout
      have hsame' := hsame.symm.trans (hcur hu hcurrent)
      rw [show m.currentVersion = some e from he, Option.map_some, Option.some.injEq] at hsame'
      rw [hsame'] at hlt
      exact absurd hlt (lt_irrefl _)
    · exact haccounted
  | newer hu hold hsame =>
    refine h.release fun m hcurrent hm => ⟨fun v hv hout => ?_, hm.marked⟩
    obtain rfl | hremoving | hupgrade | hready := hm.of_gotCurrent hu hv hout
    · obtain ⟨e, he, hlt⟩ := hout
      refine absurd ⟨e.version, ?_, hlt⟩ hold
      rw [Option.mem_def, hcur hu hcurrent, show m.currentVersion = some e from he, Option.map_some]
    · exact .inl hremoving
    · exact .inr (.inl (.inl hupgrade))
    · exact .inr (.inl (.inr (.inr hready)))
  | switch hu =>
    refine h.attempt fun m hm => ?_
    obtain ⟨e, -, -, rfl⟩ := Mux.upgrade_cases hm
    exact ⟨fun v _ _ => .inr (.inr rfl), h.marked⟩
  | @sweep call current hu =>
    refine Tracked.upgradeReturns h.marked fun v hv hout => .inl (.inl ?_)
    obtain ⟨e, he, hlt⟩ := hout
    have hversion : e.version = call.version := by
      have hcurrent := (hsound.upgrader _ hu).2.1
      rw [show d.mux.currentVersion = some e from he] at hcurrent
      exact Option.some.inj hcurrent
    obtain ⟨shouldWait, hmem⟩ := mem_swept current hv (hversion ▸ hlt) order
    exact ⟨shouldWait, List.mem_append_left _ hmem⟩

/-! ## The holder of `cleanupLock` -/

/-- A removal that goes on still accounts for its version. -/
theorem Accounted.setCleaner (h : d.Accounted v) {c : Option CleanStage} {m : Mux}
    (hc : ∀ call, d.cleaner = some (.remove call) → call.version = v →
      ∃ call', c = some (.remove call') ∧ call'.version = v) :
    ({ d with mux := m, cleaner := c } : DB).Accounted v := by
  obtain (hremoval | ⟨call, hcall, hv⟩) | hdue | hsweep := h
  · exact .inl (.inl hremoval)
  · exact .inl (.inr (hc call hcall hv))
  · exact .inr (.inl hdue)
  · exact .inr (.inr hsweep)

/-- The marked entries, if there are any, are those of the running call. -/
theorem Tracked.marked_by (h : d.Tracked) {call : RemoveCall}
    (hc : d.cleaner = some (.remove call)) {name : Bytes} {e : Entry}
    (he : d.mux.versions.lookup name = some e) (hremoving : e.removing = true) :
    name = call.version.name ∧ ∃ vs, call.stage = .armed vs ∨ call.stage = .expired vs := by
  obtain ⟨call', hcall', hname, hstage⟩ := h.marked name e he hremoving
  rw [hc] at hcall'
  cases hcall'
  exact ⟨hname.symm, hstage⟩

theorem Tracked.advance (h : d.Tracked) (hsound : d.Sound) {call : RemoveCall}
    (hc : d.cleaner = some (.remove call)) {m : Mux} {stage : RemoveStage}
    (hm : call.advance d.mux = .next m stage) :
    ({ d with mux := m, cleaner := some (.remove { call with stage := stage }) } : DB).Tracked := by
  obtain ⟨hstale, hok⟩ := hsound.cleaner _ hc
  have haccounted : ∀ v, d.Accounted v → DB.Accounted
      { d with mux := m, cleaner := some (.remove { call with stage := stage }) } v := by
    intro v hv
    refine hv.setCleaner fun call' hcall' hv' => ⟨_, rfl, ?_⟩
    rw [hc] at hcall'
    cases hcall'
    exact hv'
  obtain ⟨vs, hstage, hlook, rfl, hnext⟩ | ⟨vs, hstage, rfl, rfl⟩ | ⟨vs, hstage, rfl, rfl⟩ |
    ⟨vs, hstage, rfl, rfl⟩ := RemoveCall.advance_next hm
  · refine ⟨fun v hv hout => haccounted v (h.accounted v hv hout), fun name e he hremoving => ?_⟩
    obtain ⟨-, vs', hstage'⟩ := h.marked_by hc he hremoving
    rw [hstage] at hstage'
    obtain hstage' | hstage' := hstage' <;> cases hstage'
  · rw [hstage] at hok
    obtain ⟨e', he', hpair⟩ := hok
    refine ⟨fun v hv hout => ?_, fun name e he hremoving => ?_⟩
    · have hv' := (Mux.has_armTimer (e := { vs with closeTimer := true }) he' hpair v).mp hv
      exact haccounted v (h.accounted v hv' hout)
    · obtain ⟨hname, -⟩ | ⟨-, he⟩ := AList.lookup_insert_eq_some he
      · exact ⟨_, rfl, hname.symm, _, .inl rfl⟩
      · obtain ⟨-, vs', hstage'⟩ := h.marked_by hc he hremoving
        rw [hstage] at hstage'
        obtain hstage' | hstage' := hstage' <;> cases hstage'
  · refine ⟨fun v hv hout => haccounted v (h.accounted v hv hout), fun name e he hremoving => ?_⟩
    obtain ⟨hname, -⟩ := h.marked_by hc he hremoving
    exact ⟨_, rfl, hname.symm, vs, .inr rfl⟩
  · refine ⟨fun v hv hout => ?_, fun name e he hremoving => ?_⟩
    · obtain ⟨e, he, hev⟩ := hv
      obtain ⟨-, he⟩ := AList.lookup_erase_eq_some he
      exact haccounted v (h.accounted v ⟨e, he, hev⟩ hout)
    · obtain ⟨hne, he⟩ := AList.lookup_erase_eq_some he
      exact absurd (h.marked_by hc he hremoving).1 hne

/-- A removal that ends has nothing left to remove. -/
theorem Tracked.not_has_of_returns (h : d.Tracked) (hsound : d.Sound) {call : RemoveCall}
    (hc : d.cleaner = some (.remove call))
    (hreturns : call.advance d.mux = .returnsNil ∨ call.advance d.mux = .returnsVersion) :
    ¬ d.mux.Has call.version := by
  obtain hreturns | hreturns := hreturns
  · have hstage := RemoveCall.advance_returnsNil hreturns
    rintro ⟨e, he, -⟩
    -- the entry would be marked, but nobody else is removing it
    simp only [RemoveCall.advance, hstage, Mux.markRemoving, he] at hreturns
    split at hreturns
    · rename_i hnone
      split_ifs at hnone with hremoving
      obtain ⟨-, vs, hstage'⟩ := h.marked_by hc he hremoving
      rw [hstage] at hstage'
      obtain hstage' | hstage' := hstage' <;> cases hstage'
    · cases hreturns
  · obtain ⟨vs, hstage, -⟩ := RemoveCall.advance_returnsVersion hreturns
    have hok := (hsound.cleaner _ hc).2
    rw [hstage] at hok
    exact hok.2.2

/-- A removal ends. -/
theorem Tracked.removed (h : d.Tracked) (hsound : d.Sound) {call : RemoveCall}
    (hc : d.cleaner = some (.remove call))
    (hreturns : call.advance d.mux = .returnsNil ∨ call.advance d.mux = .returnsVersion)
    (c : Option CleanStage) : ({ d with cleaner := c } : DB).Tracked := by
  have hnot := h.not_has_of_returns hsound hc hreturns
  refine ⟨fun v hv hout => ?_, fun name e he hremoving => ?_⟩
  · refine (h.accounted v hv hout).setCleaner fun call' hcall' hv' => ?_
    rw [hc] at hcall'
    cases hcall'
    exact absurd (hv' ▸ hv) hnot
  · obtain ⟨-, vs, hstage⟩ := h.marked_by hc he hremoving
    obtain hreturns | hreturns := hreturns
    · rw [RemoveCall.advance_returnsNil hreturns] at hstage
      obtain hstage | hstage := hstage <;> cases hstage
    · obtain ⟨vs', hstage', -⟩ := RemoveCall.advance_returnsVersion hreturns
      rw [hstage'] at hstage
      obtain hstage | hstage := hstage <;> cases hstage

/-- The holder of `cleanupLock` is at something else than a removal. -/
theorem Tracked.setCleaner (h : d.Tracked) {c : Option CleanStage}
    (hc : ∀ call, d.cleaner ≠ some (.remove call)) : ({ d with cleaner := c } : DB).Tracked :=
  h.frame rfl rfl rfl (fun call hcall => absurd hcall (hc call)) rfl rfl (fun _ hv => hv) rfl
    fun _ _ hs => hs

theorem Tracked.cleanerNext (h : d.Tracked) (hsound : d.Sound) (hs : d.cleanerNext = some d') :
    d'.Tracked := by
  cases DB.cleans_of_cleanerNext hs with
  | next hc hm => exact h.advance hsound hc hm
  | returnsNil hc hm => exact h.removed hsound hc (.inl hm) _
  | returnsVersion hc hm => exact h.removed hsound hc (.inr hm) _
  | @close v hc =>
    refine (h.closeVersion v false).setCleaner fun call hcall => ?_
    rw [DB.closeVersion] at hcall
    split at hcall
    · rw [hc] at hcall
      cases hcall
    · rw [hc] at hcall
      cases hcall
  | cleaned hc => exact h.setCleaner fun call hcall => by rw [hc] at hcall; cases hcall
  | @loop dir dirs hc =>
    refine (h.setMux (Mux.acquire_versions (d.mux.versions.lookup dir))
      (Mux.acquire_currentVersion _)).setCleaner fun call hcall => ?_
    rw [hc] at hcall
    cases hcall
  | gotVersion hc =>
    refine h.release fun m _ hm => hm.setCleaner fun call hcall => ?_
    rw [hc] at hcall
    cases hcall
  | clear hc => exact h.setCleaner fun call hcall => by rw [hc] at hcall; cases hcall

/-! ## Every event -/

theorem tracked_new : new.Tracked where
  accounted := fun v hv => by
    obtain ⟨e, he, -⟩ := hv
    cases he
  marked := fun name e he => by cases he

/-- A waiting call of `switchVersion` goes on, and calls `upgrade`. -/
theorem Tracked.wake (h : d.Tracked) {v : VersionRef} :
    ({ d with
      waiters := d.waiters.erase v, upgrades := ⟨v, false⟩ :: d.upgrades } : DB).Tracked := by
  refine h.mono rfl rfl (fun _ hc => hc) fun w hw => ?_
  refine hw.mono (fun _ hr => hr) (fun call hcall => ⟨call, hcall, rfl⟩)
    (List.subset_cons_self _ _) rfl fun hready hdue => ?_
  by_cases hwv : w = v
  · exact .inl ⟨⟨v, false⟩, List.mem_cons_self .., hwv.symm⟩
  · refine .inr (.inr ⟨hready, hdue.imp_left fun hw => ?_⟩)
    exact (List.mem_erase_of_ne hwv).mpr hw

/-- A call of `upgrade` gets `upgradeLock`. -/
theorem Tracked.upgrade (h : d.Tracked) {call : UpgradeCall} (hnone : d.upgrader = none) :
    ({ d with
      mux := d.mux.getCurrent.1
      upgrades := d.upgrades.erase call
      upgrader := some (call, .gotCurrent d.mux.getCurrent.2) } : DB).Tracked := by
  refine h.mono (Mux.acquire_versions d.mux.currentVersion) (Mux.acquire_currentVersion _)
    (fun _ hc => hc) fun w hw => ?_
  obtain hremoving | (⟨call', hcall', rfl⟩ | ⟨call', current, hu, -⟩ | hready) | hsweep := hw
  · exact .inl hremoving
  · by_cases heq : call' = call
    · exact .inr (.inl (.inr (.inl ⟨call, _, rfl, by rw [heq]⟩)))
    · exact .inr (.inl (.inl ⟨call', (List.mem_erase_of_ne heq).mpr hcall', rfl⟩))
  · rw [hnone] at hu
    cases hu
  · exact .inr (.inl (.inr (.inr hready)))
  · rw [Sweeping, hnone] at hsweep
    cases hsweep

/-- A removal gets `cleanupLock`. -/
theorem Tracked.remove (h : d.Tracked) {removal : VersionRef × Bool} {peers : Bool}
    (hnone : d.cleaner = none) :
    ({ d with
      removals := d.removals.erase removal
      cleaner := some (.remove ⟨removal.1, removal.2 && peers, .called⟩) } : DB).Tracked := by
  refine h.mono rfl rfl (fun call hcall => by rw [hnone] at hcall; cases hcall) fun w hw => ?_
  obtain (⟨shouldWait, hmem⟩ | ⟨call, hcall, -⟩) | hdue | hsweep := hw
  · by_cases heq : (w, shouldWait) = removal
    · exact .inl (.inr ⟨_, rfl, by rw [← heq]⟩)
    · exact .inl (.inl ⟨shouldWait, (List.mem_erase_of_ne heq).mpr hmem⟩)
  · rw [hnone] at hcall
    cases hcall
  · exact .inr (.inl hdue)
  · exact .inr (.inr hsweep)

theorem Tracked.act (h : d.Tracked) (hsound : d.Sound) {peers : Bool} {e : DBEvent}
    (htime : d.PreparedInTime e) (hs : d.act peers e = some d') : d'.Tracked := by
  cases acts_of_act hs with
  | getCurrent =>
    exact { h.setMux (Mux.acquire_versions d.mux.currentVersion)
      (Mux.acquire_currentVersion _) with }
  | getVersion name =>
    exact { h.setMux (Mux.acquire_versions (d.mux.versions.lookup name))
      (Mux.acquire_currentVersion _) with }
  | release hv => exact h.release fun m _ hm => { hm with }
  | partitionsReady hv => exact { h with }
  | ready hv hnew hdone =>
    exact h.frame rfl rfl rfl (fun _ hc => hc) rfl rfl (Finset.subset_insert _ _) rfl
      fun _ _ hs => hs
  | wake hv hready => exact h.wake
  | refresh hnone =>
    refine (h.setMux (Mux.acquire_versions d.mux.currentVersion)
      (Mux.acquire_currentVersion _)).setRefresher fun w caller hs => ?_
    rw [hnone] at hs
    cases hs
  | close hnone order =>
    exact h.setRefresher fun w caller hs => by rw [hnone] at hs; cases hs
  | listVersions hs =>
    obtain ⟨r, r', hr, hlisted, rfl⟩ := DB.listed_of_onListVersions hs
    refine h.setRefresher fun w caller hs => ?_
    rw [hr] at hs
    cases hs
    cases hlisted
  | newVersion hs =>
    cases DB.creates_of_onNewVersion hs with
    | backfillFails hr =>
      exact h.setRefresher fun w caller hs => by rw [hr] at hs; cases hs
    | refreshFails hr =>
      exact h.setRefresher fun w caller hs => by rw [hr] at hs; cases hs
    | backfill hr complete =>
      exact h.createVersion (fun w caller hs => by rw [hr] at hs; cases hs) _ _ _
    | refresh hr complete =>
      exact h.createVersion (fun w caller hs => by rw [hr] at hs; cases hs) _ _ _
  | refresherNext hs => exact h.refresherNext hs htime
  | upgrade hcall hnone => exact h.upgrade hnone
  | upgraderNext hs => exact h.upgraderNext hsound hs
  | remove hremoval hnone => exact h.remove hnone
  | cleanup hdue hnone dirs =>
    have hstep := h.setCleaner (c := some (.loop dirs)) fun call hcall => by
      rw [hnone] at hcall
      cases hcall
    exact { hstep with }
  | cleanerNext hs => exact h.cleanerNext hsound hs

theorem tracked_of_reachable {peers : Bool}
    (h : ((dbMachine peers).restrict PreparedInTime).Reachable d) : d.Tracked := by
  refine h.invariant (fun _ hs => hs ▸ tracked_new) fun s e s' hr htracked hs => ?_
  obtain ⟨htime, hs⟩ := hs
  change DB.step peers s e = some s' at hs
  rw [DB.step] at hs
  split at hs
  · exact htracked.act (sound_of_reachable hr.of_restrict) htime hs
  · cases hs

end DB

/-- **No obsolete version is forgotten**, in runs in which no version is prepared too late. In
every state in which no call of `upgrade` is pending, a removal is scheduled or running for every
version in the multiplexer that is older than the current one. -/
theorem obsolete_removed {peers : Bool} {d : DB}
    (h : ((dbMachine peers).restrict DB.PreparedInTime).Reachable d) (hquiet : d.Quiet) :
    ∀ current, d.mux.currentVersion = some current →
      ∀ name e, d.mux.versions.lookup name = some e → name < current.version.name →
        (∃ shouldWait, (e.version, shouldWait) ∈ d.removals) ∨
          ∃ call, d.cleaner = some (.remove call) ∧ call.version = e.version := by
  intro current hcurrent name e he hlt
  have hname := (DB.sound_of_reachable h.of_restrict).known.name name e he
  have haccounted := (DB.tracked_of_reachable h).accounted e.version
    ⟨e, by rwa [hname], rfl⟩ ⟨current, hcurrent, by rwa [hname]⟩
  obtain hremoving | (⟨call, hcall, -⟩ | ⟨call, stage, hu, -⟩ | ⟨hready, hdue⟩) | hsweep :=
    haccounted
  · exact hremoving
  · rw [hquiet.upgrades] at hcall
    cases hcall
  · rw [hquiet.upgrader] at hu
    cases hu
  · obtain hwait | ⟨caller, hs⟩ := hdue
    · exact absurd hready (hquiet.waiters _ hwait)
    · exact absurd hready (hquiet.refresher _ caller hs)
  · rw [DB.Sweeping, hquiet.upgrader] at hsweep
    cases hsweep

/-- A db refreshes from version `1` to `2`, and the removal of `1` is scheduled. -/
theorem obsolete_removed_refreshesOnce :
    ∃ d, ((dbMachine true).restrict DB.PreparedInTime).Reachable d ∧
      ((∃ shouldWait, (⟨0, [49]⟩, shouldWait) ∈ d.removals) ∨
        ∃ call, d.cleaner = some (.remove call) ∧ call.version = ⟨0, [49]⟩) :=
  have hreach : ((dbMachine true).restrict DB.PreparedInTime).Reachable _ :=
    .runGuarded (.start rfl) refreshesOnce rfl
  ⟨_, hreach, obsolete_removed hreach ⟨rfl, rfl, by decide, fun _ _ hs => by cases hs⟩ _ rfl
    [49] _ rfl (by decide)⟩

/-- `backfillVersions` prepares version `3`, which becomes ready and current before it prepares
version `2`. -/
def backfillsLate : List DBEvent :=
  [.listVersions (some [[50], [51]]), .newVersion (some false), .refresherNext, .refresherNext,
    .partitionsReady ⟨0, [51]⟩, .ready ⟨0, [51]⟩, .wake ⟨0, [51]⟩, .upgrade ⟨⟨0, [51]⟩, false⟩,
    .upgraderNext (.stored _), .upgraderNext (.stored _), .upgraderNext (.stored _),
    .newVersion (some false), .refresherNext, .refresherNext, .refresherNext]

/-- **A version that is prepared late is forgotten.** The current version is `3`, nothing is
pending, and version `2` waits to become ready. -/
theorem late_version_forgotten :
    ∃ d, (dbMachine true).Reachable d ∧ d.Quiet ∧
      d.mux.currentVersion.map Entry.version = some ⟨0, [51]⟩ ∧
      (d.mux.versions.lookup [50]).map Entry.version = some ⟨1, [50]⟩ ∧
      d.removals = [] ∧ d.cleaner = none ∧ d.waiters = [⟨1, [50]⟩] :=
  ⟨_, .run (.start rfl) backfillsLate rfl, ⟨rfl, rfl, by decide, fun _ _ hs => by cases hs⟩,
    by decide, by decide, by decide, by decide, by decide⟩

end Sequins
