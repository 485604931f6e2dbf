import Sequins.InUse

/-!
# Where a version goes next

Which goroutines of a db have a version in hand, and how an event passes it on. A version that
was prepared is pending at `switchVersion`; from there it goes to a goroutine that waits for
`ready`, to a call of `upgrade`, to a call of `removeVersion`, and so to the stages of
`removeVersion` that delete its entry and close it. `db.close` closes versions as well, without
taking them from anybody.

`DB.Handover` says what every event does to this, whoever causes it: nobody gets a version but
from the multiplexer or from the one that had it before, and there are only two places where a
version is closed (`DB.Shuts`).
-/

namespace Sequins

/-! ## Who has a version -/

/-- `switchVersion`, before it waits for the version or calls `upgrade`. -/
def RefreshStage.pending : RefreshStage → List VersionRef
  | .select v _ => [v]
  | _ => []

/-- What `close` is going to close. -/
def RefreshStage.toClose : RefreshStage → List VersionRef
  | .close vs => vs
  | _ => []

/-- `removeVersion`, before it has looked into the multiplexer. -/
def CleanStage.pending : CleanStage → List VersionRef
  | .remove ⟨v, _, .called⟩ => [v]
  | _ => []

/-- `removeVersion`, once it has found an entry to delete. -/
def CleanStage.removing : CleanStage → List VersionRef
  | .remove ⟨v, _, .marked _⟩ => [v]
  | .remove ⟨v, _, .armed _⟩ => [v]
  | .remove ⟨v, _, .expired _⟩ => [v]
  | _ => []

/-- `removeVersion`, between the deletion and `version.close`. -/
def CleanStage.removed : CleanStage → List VersionRef
  | .remove ⟨v, _, .deleted _⟩ => [v]
  | .close v => [v]
  | _ => []

/-- The event may close `partitions.ready` of a version. -/
def DBEvent.completes : DBEvent → Bool
  | .partitionsReady _ => true
  | .newVersion (some _) => true
  | _ => false

namespace DB

/-- The versions that `upgrade` was called with. -/
def callers (d : DB) : List VersionRef :=
  d.upgrades.map UpgradeCall.version ++ d.upgrader.elim [] fun u => [u.1.version]

/-- The versions that somebody is going to call `mux.remove` with, unless they become current. -/
def pending (d : DB) : List VersionRef :=
  d.waiters ++ d.callers ++ d.removals.map Prod.fst ++ d.refresher.elim [] RefreshStage.pending ++
    d.cleaner.elim [] CleanStage.pending

def removing (d : DB) : List VersionRef := d.cleaner.elim [] CleanStage.removing

def removed (d : DB) : List VersionRef := d.cleaner.elim [] CleanStage.removed

def toClose (d : DB) : List VersionRef := d.refresher.elim [] RefreshStage.toClose

/-! ## What an event does

One structure says for each station where its versions came from. The proofs below go event by
event; an event that moves no version between stations is `handover_idle`. -/

/-- What an event can have to do with `version.close`. -/
inductive Shuts (e : DBEvent) (d d' : DB) : Prop where
  /-- nothing -/
  | keep (cancelled : d'.cancelled = d.cancelled) (closes : d'.closes = d.closes)
      (toClose : d'.toClose = d.toClose) (panic : d'.panic ≠ some .closeOfClosedChannel)
  /-- `close` takes its lock -/
  | begin (order : IterOrder (Σ _ : Bytes, Entry)) (event : e = .close order)
      (refresher : d.refresher = none)
      (next : d' = { d with refresher := some (.close (d.mux.getAll order)) })
  /-- `close` closes a version -/
  | byDB (v : VersionRef) (vs : List VersionRef) (event : e = .refresherNext)
      (refresher : d.refresher = some (.close (v :: vs)))
      (next : d' = { d.closeVersion v true with refresher := some (.close vs) })
  /-- `removeVersion` closes a version -/
  | byCleaner (v : VersionRef) (cleaner : d.cleaner = some (.close v))
      (next : d' = { d.closeVersion v false with cleaner := none })

/-- How versions are passed on. -/
structure Handover (e : DBEvent) (d d' : DB) : Prop where
  /-- `partitions.ready` stays closed -/
  complete : d.partitionsReady ⊆ d'.partitionsReady
  /-- and is closed by the events that say so -/
  incomplete : e.completes = false → d'.partitionsReady = d.partitionsReady
  /-- version objects are made -/
  created : d.created <:+ d'.created
  /-- `ready` is closed for a reason -/
  ready : ∀ v ∈ d'.ready, v ∈ d.ready ∨ v ∈ d.cancelled ∨ v ∈ d'.partitionsReady
  /-- `upgrade` is called for versions whose `ready` is closed -/
  callers : ∀ v ∈ d'.callers, v ∈ d.callers ∨ v ∈ d.ready
  /-- what is pending comes from the multiplexer -/
  pending : ∀ v ∈ d'.pending, v ∈ d.pending ∨ d'.mux.Has v
  /-- what is being removed was found under its name -/
  removing : ∀ v ∈ d'.removing,
    v ∈ d.removing ∨ v ∈ d.pending ∧ ∃ vs, d'.mux.versions.lookup v.name = some vs
  /-- what is going to be closed was deleted -/
  removed : ∀ v ∈ d'.removed, v ∈ d.removed ∨ v ∈ d.removing
  /-- the history grows -/
  currents : d.currents <:+ d'.currents
  /-- what is closed -/
  shuts : Shuts e d d'

variable {d d' : DB} {e : DBEvent}

theorem mem_pending {v : VersionRef} : v ∈ d.pending ↔
    v ∈ d.waiters ∨ v ∈ d.callers ∨ v ∈ d.removals.map Prod.fst ∨
      v ∈ d.refresher.elim [] RefreshStage.pending ∨ v ∈ d.cleaner.elim [] CleanStage.pending := by
  simp only [pending, List.mem_append, or_assoc]

/-- An event that only concerns the multiplexer and the references. -/
theorem handover_idle {m : Mux} {clients : List VersionRef} {cleanups : ℕ} {p : Option Panic}
    (hp : p ≠ some .closeOfClosedChannel) :
    Handover e d { d with mux := m, clients := clients, cleanups := cleanups, panic := p } where
  complete := Finset.Subset.refl _
  incomplete := fun _ => rfl
  created := List.suffix_rfl
  ready := fun _ hv => .inl hv
  callers := fun _ hv => .inl hv
  pending := fun _ hv => .inl hv
  removing := fun _ hv => .inl hv
  removed := fun _ hv => .inl hv
  currents := List.suffix_rfl
  shuts := .keep rfl rfl rfl hp

/-- A method of the multiplexer may panic, and then nothing is passed on. -/
theorem handover_attempt {r : Except Panic Mux} {go : Mux → DB}
    (herr : ∀ p, r = .error p → p ≠ .closeOfClosedChannel)
    (hok : ∀ m, r = .ok m → Handover e d (go m)) : Handover e d (d.attempt r go) := by
  cases r with
  | error p =>
    have hp : some p ≠ some Panic.closeOfClosedChannel := fun h => herr p rfl (Option.some.inj h)
    exact handover_idle hp
  | ok m => exact hok m rfl

/-- `release` panics for its own reasons only. -/
theorem handover_release {v : Option VersionRef} {go : Mux → DB}
    (hok : ∀ m, Handover e d (go m)) : Handover e d (d.attempt (d.mux.release v) go) := by
  refine handover_attempt (fun p hp => ?_) fun m _ => hok m
  rw [Mux.release_error hp]
  exact Panic.noConfusion

/-- The holder of `refreshLock` moves between stages that have no version in hand. -/
theorem handover_refresher (hpanic : d.panic = none) {m : Mux} {r : Option RefreshStage}
    {cleanups : ℕ} (hbefore : d.toClose = []) (hclose : r.elim [] RefreshStage.toClose = [])
    (hpending : r.elim [] RefreshStage.pending = []) :
    Handover e d { d with mux := m, refresher := r, cleanups := cleanups } where
  complete := Finset.Subset.refl _
  incomplete := fun _ => rfl
  created := List.suffix_rfl
  ready := fun _ hv => .inl hv
  callers := fun _ hv => .inl hv
  pending := by
    intro v hv
    rw [mem_pending] at hv ⊢
    simp only [hpending, List.not_mem_nil, false_or] at hv
    tauto
  removing := fun _ hv => .inl hv
  removed := fun _ hv => .inl hv
  currents := List.suffix_rfl
  shuts := .keep rfl rfl (hclose.trans hbefore.symm) (by simp [hpanic])

/-- So does the holder of `cleanupLock`. -/
theorem handover_cleaner (hpanic : d.panic = none) {m : Mux} {c : Option CleanStage}
    (hpending : c.elim [] CleanStage.pending = []) (hremoving : c.elim [] CleanStage.removing = [])
    (hremoved : c.elim [] CleanStage.removed = []) :
    Handover e d { d with mux := m, cleaner := c } where
  complete := Finset.Subset.refl _
  incomplete := fun _ => rfl
  created := List.suffix_rfl
  ready := fun _ hv => .inl hv
  callers := fun _ hv => .inl hv
  pending := by
    intro v hv
    rw [mem_pending] at hv ⊢
    simp only [hpending, List.not_mem_nil, or_false] at hv
    tauto
  removing := by simp [DB.removing, hremoving]
  removed := by simp [DB.removed, hremoved]
  currents := List.suffix_rfl
  shuts := .keep rfl rfl rfl (by simp [hpanic])

/-- `version.close` changes nothing else. -/
theorem closeVersion_eq (v : VersionRef) (byDB : Bool) :
    d.closeVersion v byDB = { d with
      cancelled := (d.closeVersion v byDB).cancelled
      panic := (d.closeVersion v byDB).panic
      closes := (d.closeVersion v byDB).closes } := by
  rw [closeVersion]
  split <;> rfl

/-- A version is closed by somebody who then has nothing in hand. -/
theorem handover_closeVersion {cancelled : Finset VersionRef} {panic : Option Panic}
    {closes : List Close} {r : Option RefreshStage} {c : Option CleanStage}
    (hr : r = d.refresher ∨ r.elim [] RefreshStage.pending = []) (hc : c = d.cleaner ∨ c = none)
    (hshuts : Shuts e d { d with
      cancelled := cancelled, panic := panic, closes := closes, refresher := r, cleaner := c }) :
    Handover e d { d with
      cancelled := cancelled, panic := panic, closes := closes, refresher := r, cleaner := c } where
  complete := Finset.Subset.refl _
  incomplete := fun _ => rfl
  created := List.suffix_rfl
  ready := fun _ hv => .inl hv
  callers := fun _ hv => .inl hv
  pending := by
    intro v hv
    refine .inl (mem_pending.mpr ?_)
    obtain hv | hv | hv | hv | hv := mem_pending.mp hv
    · exact .inl hv
    · exact .inr (.inl hv)
    · exact .inr (.inr (.inl hv))
    · obtain rfl | hr := hr
      · exact .inr (.inr (.inr (.inl hv)))
      · rw [hr] at hv
        cases hv
    · obtain rfl | rfl := hc
      · exact .inr (.inr (.inr (.inr hv)))
      · cases hv
  removing := by
    intro v hv
    obtain rfl | rfl := hc
    · exact .inl hv
    · cases hv
  removed := by
    intro v hv
    obtain rfl | rfl := hc
    · exact .inl hv
    · cases hv
  currents := List.suffix_rfl
  shuts := hshuts

/-! ## The holder of `refreshLock`

It prepares a version, calls `upgrade` with it or starts a goroutine that will, and as `db.close`
it closes versions one by one. -/

/-- What the holder of `refreshLock` is going to close. -/
theorem toClose_of_refresher {r : RefreshStage} (hr : d.refresher = some r)
    (h : r.toClose = []) : d.toClose = [] := by
  rw [DB.toClose, hr]
  exact h

theorem handover_onListVersions {names : Option (List Bytes)} (hpanic : d.panic = none)
    (hs : d.onListVersions names = some d') : Handover e d d' := by
  obtain ⟨r, r', hr, hlisted, rfl⟩ := listed_of_onListVersions hs
  refine handover_refresher hpanic (toClose_of_refresher hr ?_) ?_ ?_
  · cases hlisted <;> rfl
  · cases hlisted <;> rfl
  · cases hlisted <;> rfl

/-- A new version is complete if its `ready` is closed. -/
theorem handover_createVersion {name : Bytes} {complete : Bool} {caller : SwitchCaller}
    (hpanic : d.panic = none) (hbefore : d.toClose = []) :
    Handover (.newVersion (some complete)) d (d.createVersion name complete caller) := by
  have hmove : Handover (.newVersion (some complete)) d { d with
      mux := d.mux, refresher := some (.switch ⟨d.created.length, name⟩ caller) } :=
    handover_refresher hpanic hbefore rfl rfl
  refine { hmove with
    complete := ?_
    incomplete := fun h => by cases h
    created := List.suffix_cons _ _
    ready := fun v hv => ?_
    shuts := ?_ }
  · simp only [createVersion]
    split
    · exact Finset.subset_insert _ _
    · exact Finset.Subset.refl _
  · cases complete with
    | false => exact .inl hv
    | true =>
      obtain rfl | hv := Finset.mem_insert.mp hv
      · exact .inr (.inr (Finset.mem_insert_self _ _))
      · exact .inl hv
  · exact .keep rfl rfl hbefore.symm (by simp [createVersion, hpanic])

/-- A version that was just created is in nobody's hands. -/
theorem handover_onNewVersion {complete : Option Bool} (hpanic : d.panic = none)
    (hs : d.onNewVersion complete = some d') : Handover (.newVersion complete) d d' := by
  cases creates_of_onNewVersion hs with
  | backfillFails hr | refreshFails hr =>
    exact handover_refresher hpanic (toClose_of_refresher hr rfl) rfl rfl
  | backfill hr complete => exact handover_createVersion hpanic (toClose_of_refresher hr rfl)
  | refresh hr complete => exact handover_createVersion hpanic (toClose_of_refresher hr rfl)

/-- `switchVersion` prepares a version and has it in hand. -/
theorem handover_prepare {v : VersionRef} {caller : SwitchCaller} {m : Mux}
    (hpanic : d.panic = none) (hbefore : d.toClose = []) (hm : d.mux.prepare v = .ok m) :
    Handover e d { d with mux := m, refresher := some (.select v caller) } := by
  have hhas : m.Has v := by
    rw [(Mux.prepare_cases hm).2]
    exact ⟨_, AList.lookup_insert _, rfl⟩
  have hmove : Handover e d { d with mux := m, refresher := none } :=
    handover_refresher hpanic hbefore rfl rfl
  refine { hmove with pending := fun w hw => ?_, shuts := ?_ }
  · rw [mem_pending] at hw
    obtain hw | hw | hw | hw | hw := hw
    · exact .inl (mem_pending.mpr (.inl hw))
    · exact .inl (mem_pending.mpr (.inr (.inl hw)))
    · exact .inl (mem_pending.mpr (.inr (.inr (.inl hw))))
    · obtain rfl : w = v := List.mem_singleton.mp hw
      exact .inr hhas
    · exact .inl (mem_pending.mpr (.inr (.inr (.inr (.inr hw)))))
  · exact .keep rfl rfl hbefore.symm (by simp [hpanic])

/-- After `switchVersion` its caller has no version in hand. -/
theorem resume_pending (caller : SwitchCaller) (ready : Bool) :
    (caller.resume ready).elim [] RefreshStage.pending = [] := by
  cases caller <;> rfl

theorem resume_toClose (caller : SwitchCaller) (ready : Bool) :
    (caller.resume ready).elim [] RefreshStage.toClose = [] := by
  cases caller <;> rfl

theorem mem_pending_of_select {v : VersionRef} {caller : SwitchCaller}
    (hr : d.refresher = some (.select v caller)) : v ∈ d.pending := by
  rw [mem_pending, hr]
  exact .inr (.inr (.inr (.inl List.mem_cons_self)))

/-- `switchVersion` calls `upgrade`. -/
theorem handover_selectReady {v : VersionRef} {caller : SwitchCaller} (hpanic : d.panic = none)
    (hr : d.refresher = some (.select v caller)) (hready : v ∈ d.ready) :
    Handover e d { d with
      upgrades := ⟨v, true⟩ :: d.upgrades, refresher := some (.upgrade v caller) } := by
  have hbefore := toClose_of_refresher hr rfl
  have hmove : Handover e d { d with mux := d.mux, refresher := some (.upgrade v caller) } :=
    handover_refresher hpanic hbefore rfl rfl
  have hcallers : ∀ w ∈ v :: d.callers, w ∈ d.callers ∨ w ∈ d.ready := by
    intro w hw
    obtain rfl | hw := List.mem_cons.mp hw
    · exact .inr hready
    · exact .inl hw
  refine { hmove with
    callers := hcallers
    pending := fun w hw => .inl ?_
    shuts := .keep rfl rfl hbefore.symm (by simp [hpanic]) }
  by_cases hwv : w = v
  · exact hwv ▸ mem_pending_of_select hr
  · rw [mem_pending] at hw ⊢
    simp only [DB.callers, List.map_cons, List.cons_append, List.mem_cons, hwv, false_or,
      Option.elim, RefreshStage.pending, List.not_mem_nil] at hw
    tauto

/-- Or it starts a goroutine that will. -/
theorem handover_selectWaits {v : VersionRef} {caller : SwitchCaller} (hpanic : d.panic = none)
    (hr : d.refresher = some (.select v caller)) :
    Handover e d { d with waiters := v :: d.waiters, refresher := caller.resume false } := by
  have hbefore := toClose_of_refresher hr rfl
  have hmove : Handover e d { d with mux := d.mux, refresher := caller.resume false } :=
    handover_refresher hpanic hbefore (resume_toClose caller false) (resume_pending caller false)
  refine { hmove with
    pending := fun w hw => .inl ?_
    shuts := .keep rfl rfl ((resume_toClose caller false).trans hbefore.symm) (by simp [hpanic]) }
  by_cases hwv : w = v
  · exact hwv ▸ mem_pending_of_select hr
  · rw [mem_pending] at hw ⊢
    simp only [List.mem_cons, hwv, false_or, resume_pending, List.not_mem_nil] at hw
    tauto

theorem handover_refresherNext (hpanic : d.panic = none) (hs : d.refresherNext = some d') :
    Handover .refresherNext d d' := by
  cases refreshes_of_refresherNext hs with
  | backfilled hr | check hr | closed hr =>
    exact handover_refresher hpanic (toClose_of_refresher hr rfl) rfl rfl
  | gotCurrent hr =>
    exact handover_release fun m => handover_refresher hpanic (toClose_of_refresher hr rfl) rfl rfl
  | @gotExisting latest existing hr =>
    refine handover_release fun m =>
      handover_refresher hpanic (toClose_of_refresher hr rfl) ?_ ?_
    · cases existing <;> rfl
    · cases existing <;> rfl
  | switch hr =>
    refine handover_attempt (fun p hp => ?_) fun m hm =>
      handover_prepare hpanic (toClose_of_refresher hr rfl) hm
    rw [Mux.prepare] at hp
    split at hp
    · obtain rfl := Except.error.inj hp
      exact Panic.noConfusion
    · cases hp
  | selectReady hr hready => exact handover_selectReady hpanic hr hready
  | selectWaits hr => exact handover_selectWaits hpanic hr
  | @close v vs hr =>
    have hshuts : Shuts .refresherNext d { d.closeVersion v true with
        refresher := some (.close vs) } := .byDB v vs rfl hr rfl
    rw [closeVersion_eq] at hshuts ⊢
    exact handover_closeVersion (.inr rfl) (.inl rfl) hshuts

/-! ## The holder of `upgradeLock` -/

/-- The return of `upgrade` lets `switchVersion` go on, which has passed its version on. -/
theorem upgradeReturns_pending (call : UpgradeCall) :
    (d.upgradeReturns call).refresher.elim [] RefreshStage.pending =
      d.refresher.elim [] RefreshStage.pending := by
  rw [upgradeReturns]
  split
  · rcases hr : d.refresher with _ | r
    · rfl
    · cases r with
      | upgrade v caller => exact resume_pending caller true
      | _ => rfl
  · rfl

theorem upgradeReturns_toClose (call : UpgradeCall) :
    (d.upgradeReturns call).toClose = d.toClose := by
  rw [upgradeReturns, DB.toClose, DB.toClose]
  split
  · rcases hr : d.refresher with _ | r
    · rfl
    · cases r with
      | upgrade v caller => exact resume_toClose caller true
      | _ => rfl
  · rfl

/-- `upgrade` returns, and has started removals. -/
theorem handover_upgradeReturns {m : Mux} {l : List (VersionRef × Bool)} (call : UpgradeCall)
    (hpanic : d.panic = none) (hl : ∀ r ∈ l, r.1 ∈ d.pending ∨ m.Has r.1) :
    Handover e d ({ d with mux := m, removals := l ++ d.removals }.upgradeReturns call) where
  complete := Finset.Subset.refl _
  incomplete := fun _ => rfl
  created := List.suffix_rfl
  ready := fun _ hv => .inl hv
  callers := by
    intro v hv
    rw [DB.callers, List.mem_append] at hv ⊢
    exact .inl (.inl (hv.resolve_right List.not_mem_nil))
  pending := by
    intro v hv
    rw [mem_pending, upgradeReturns_pending] at hv
    obtain hv | hv | hv | hv | hv := hv
    · exact .inl (mem_pending.mpr (.inl hv))
    · rw [DB.callers, List.mem_append] at hv
      refine .inl (mem_pending.mpr (.inr (.inl ?_)))
      exact List.mem_append_left _ (hv.resolve_right List.not_mem_nil)
    · obtain ⟨r, hr, rfl⟩ := List.mem_map.mp hv
      obtain hr | hr := List.mem_append.mp hr
      · exact hl r hr
      · exact .inl (mem_pending.mpr (.inr (.inr (.inl (List.mem_map_of_mem hr)))))
    · exact .inl (mem_pending.mpr (.inr (.inr (.inr (.inl hv)))))
    · exact .inl (mem_pending.mpr (.inr (.inr (.inr (.inr hv)))))
  removing := fun _ hv => .inl hv
  removed := fun _ hv => .inl hv
  currents := List.suffix_rfl
  shuts := .keep rfl rfl (upgradeReturns_toClose call) (by simp [upgradeReturns, hpanic])

/-- `upgrade` goes on with the same version. -/
theorem handover_upgrader {m : Mux} {call : UpgradeCall} {stage stage' : UpgradeStage}
    {currents : List Bytes} (hpanic : d.panic = none) (hu : d.upgrader = some (call, stage))
    (hcurrents : d.currents <:+ currents) :
    Handover e d { d with mux := m, upgrader := some (call, stage'), currents := currents } := by
  have hcallers : ({ d with upgrader := some (call, stage') } : DB).callers = d.callers := by
    rw [DB.callers, DB.callers, hu]
    rfl
  refine ⟨Finset.Subset.refl _, fun _ => rfl, List.suffix_rfl, fun _ => .inl,
    fun v hv => .inl (hcallers ▸ hv), fun v hv => .inl ?_, fun _ => .inl, fun _ => .inl, hcurrents,
    .keep rfl rfl rfl (by simp [hpanic])⟩
  rw [mem_pending] at hv ⊢
  exact hcallers ▸ hv

/-- By cases on the stage. What is removed was found in the multiplexer. -/
theorem handover_upgraderNext {order : IterOrder (Σ _ : Bytes, Entry)} (hpanic : d.panic = none)
    (hknown : d.mux.Known) (hs : d.upgraderNext order = some d') : Handover e d d' := by
  cases upgrades_of_upgraderNext hs with
  | @outdated call current hu hold =>
    refine handover_release fun m =>
      handover_upgradeReturns (l := [(call.version, false)]) call hpanic fun r hr => .inl ?_
    obtain rfl := List.mem_singleton.mp hr
    refine mem_pending.mpr (.inr (.inl (List.mem_append_right _ ?_)))
    rw [hu]
    exact List.mem_cons_self
  | @same call current hu hsame =>
    exact handover_release fun m =>
      handover_upgradeReturns (l := []) call hpanic fun _ hr => by cases hr
  | newer hu => exact handover_release fun m => handover_upgrader hpanic hu List.suffix_rfl
  | switch hu =>
    refine handover_attempt (fun p hp => ?_) fun m _ =>
      handover_upgrader hpanic hu (List.suffix_cons _ _)
    rw [Mux.upgrade, Mux.mustGet] at hp
    split at hp
    · obtain rfl := Except.error.inj hp
      rename_i hget
      split at hget
      · obtain rfl := Except.error.inj hget
        exact Panic.noConfusion
      · split at hget
        · obtain rfl := Except.error.inj hget
          exact Panic.noConfusion
        · cases hget
    · cases hp
  | @sweep call current hu =>
    refine handover_upgradeReturns call hpanic fun r hr => .inr ?_
    obtain ⟨old, hold, hr⟩ := List.mem_filterMap.mp hr
    have hhas := hknown.has_of_mem_getAll hold
    split_ifs at hr
    · obtain rfl := Option.some.inj hr
      exact hhas
    · obtain rfl := Option.some.inj hr
      exact hhas

/-! ## The holder of `cleanupLock` -/

/-- `mux.remove` goes on with the same version. -/
theorem handover_remove {call : RemoveCall} {m : Mux} {stage : RemoveStage}
    (hpanic : d.panic = none) (hc : d.cleaner = some (.remove call)) (hm : call.advance d.mux = .next m stage) :
    Handover e d { d with mux := m, cleaner := some (.remove { call with stage := stage }) } := by
  have hmove : Handover e d { d with mux := m, cleaner := none } :=
    handover_cleaner hpanic rfl rfl rfl
  have hpending : ({ d with mux := m, cleaner := none } : DB).pending =
      ({ d with mux := m, cleaner := some (.remove { call with stage := stage }) } : DB).pending := by
    obtain ⟨vs, -, -, -, rfl | rfl⟩ | ⟨vs, -, -, rfl⟩ | ⟨vs, -, -, rfl⟩ | ⟨vs, -, -, rfl⟩ :=
      RemoveCall.advance_next hm <;> rfl
  refine { hmove with
    pending := fun v hv => hmove.pending v (hpending ▸ hv)
    removing := fun v hv => ?_
    removed := fun v hv => ?_
    shuts := .keep rfl rfl rfl (by simp [hpanic]) }
  all_goals obtain ⟨w, shouldWait, before⟩ := call
  · obtain ⟨vs, rfl, hlook, rfl, hnext⟩ | ⟨vs, rfl, rfl, rfl⟩ | ⟨vs, rfl, rfl, rfl⟩ |
      ⟨vs, rfl, rfl, rfl⟩ := RemoveCall.advance_next hm
    · -- an entry was found
      obtain rfl : v = w := by
        obtain rfl | rfl := hnext
        · exact List.mem_singleton.mp hv
        · exact List.mem_singleton.mp hv
      refine .inr ⟨mem_pending.mpr ?_, vs, hlook⟩
      rw [hc]
      exact .inr (.inr (.inr (.inr List.mem_cons_self)))
    · rw [DB.removing, hc]
      exact .inl hv
    · rw [DB.removing, hc]
      exact .inl hv
    · cases hv
  · obtain ⟨vs, rfl, hlook, rfl, hnext⟩ | ⟨vs, rfl, rfl, rfl⟩ | ⟨vs, rfl, rfl, rfl⟩ |
      ⟨vs, rfl, rfl, rfl⟩ := RemoveCall.advance_next hm
    · obtain rfl | rfl := hnext
      · cases hv
      · cases hv
    · cases hv
    · cases hv
    · rw [DB.removing, hc]
      exact .inr hv

theorem handover_cleanerNext (hpanic : d.panic = none) (hs : d.cleanerNext = some d') :
    Handover e d d' := by
  cases cleans_of_cleanerNext hs with
  | next hc hm => exact handover_remove hpanic hc hm
  | returnsNil | cleaned | loop | clear => exact handover_cleaner hpanic rfl rfl rfl
  | @returnsVersion call hc hm =>
    obtain ⟨w, shouldWait, stage⟩ := call
    obtain ⟨vs, rfl, -⟩ := RemoveCall.advance_returnsVersion hm
    have hmove : Handover e d { d with mux := d.mux, cleaner := none } :=
      handover_cleaner hpanic rfl rfl rfl
    refine { hmove with
      removed := fun v hv => ?_
      shuts := .keep rfl rfl rfl (by simp [hpanic]) }
    rw [DB.removed, hc]
    exact .inl hv
  | @close v hc =>
    have hshuts : Shuts e d { d.closeVersion v false with cleaner := none } := .byCleaner v hc rfl
    rw [closeVersion_eq] at hshuts ⊢
    exact handover_closeVersion (.inl rfl) (.inr rfl) hshuts
  | @gotVersion dir v dirs hc =>
    refine handover_release fun m => ?_
    cases v with
    | none => exact handover_cleaner hpanic rfl rfl rfl
    | some v => exact handover_cleaner hpanic rfl rfl rfl

/-! ## Every event -/

/-- The goroutine of `switchVersion` calls `upgrade`. -/
theorem handover_wake {v : VersionRef} (hpanic : d.panic = none)
    (hv : v ∈ d.waiters ∧ v ∈ d.ready) :
    Handover e d { d with
      waiters := d.waiters.erase v, upgrades := ⟨v, false⟩ :: d.upgrades } := by
  have hidle : Handover e d { d with mux := d.mux, panic := d.panic } :=
    handover_idle (by simp [hpanic])
  refine { hidle with
    callers := fun w hw => ?_
    pending := fun w hw => .inl (mem_pending.mpr ?_)
    shuts := .keep rfl rfl rfl (by simp [hpanic]) }
  · obtain rfl | hw := List.mem_cons.mp hw
    · exact .inr hv.2
    · exact .inl hw
  · obtain hw | hw | hw := mem_pending.mp hw
    · exact .inl (List.mem_of_mem_erase hw)
    · obtain rfl | hw := List.mem_cons.mp hw
      · exact .inl hv.1
      · exact .inr (.inl hw)
    · exact .inr (.inr hw)

/-- `upgrade` takes its lock. -/
theorem handover_upgrade {call : UpgradeCall} {m : Mux} {stage : UpgradeStage}
    (hpanic : d.panic = none) (hcall : call ∈ d.upgrades) :
    Handover e d { d with
      mux := m, upgrades := d.upgrades.erase call, upgrader := some (call, stage) } := by
  have hcallers : ∀ w ∈ ({ d with
      upgrades := d.upgrades.erase call, upgrader := some (call, stage) } : DB).callers,
      w ∈ d.callers := by
    intro w hw
    refine List.mem_append_left _ ?_
    obtain hw | hw := List.mem_append.mp hw
    · obtain ⟨c, hc, rfl⟩ := List.mem_map.mp hw
      exact List.mem_map_of_mem (List.mem_of_mem_erase hc)
    · obtain rfl := List.mem_singleton.mp hw
      exact List.mem_map_of_mem hcall
  refine ⟨Finset.Subset.refl _, fun _ => rfl, List.suffix_rfl, fun _ => .inl,
    fun w hw => .inl (hcallers w hw), fun w hw => .inl (mem_pending.mpr ?_), fun _ => .inl,
    fun _ => .inl, List.suffix_rfl, .keep rfl rfl rfl (by simp [hpanic])⟩
  obtain hw | hw | hw := mem_pending.mp hw
  · exact .inl hw
  · exact .inr (.inl (hcallers w hw))
  · exact .inr (.inr hw)

/-- `removeVersion` takes its lock. -/
theorem handover_removal {removal : VersionRef × Bool} {shouldWait : Bool} (hpanic : d.panic = none)
    (hremoval : removal ∈ d.removals) :
    Handover e d { d with
      removals := d.removals.erase removal
      cleaner := some (.remove ⟨removal.1, shouldWait, .called⟩) } := by
  refine ⟨Finset.Subset.refl _, fun _ => rfl, List.suffix_rfl, fun _ => .inl, fun _ => .inl,
    fun w hw => .inl (mem_pending.mpr ?_), fun w hw => ?_, fun w hw => ?_, List.suffix_rfl,
    .keep rfl rfl rfl (by simp [hpanic])⟩
  · obtain hw | hw | hw | hw | hw := mem_pending.mp hw
    · exact .inl hw
    · exact .inr (.inl hw)
    · obtain ⟨r, hr, rfl⟩ := List.mem_map.mp hw
      exact .inr (.inr (.inl (List.mem_map_of_mem (List.mem_of_mem_erase hr))))
    · exact .inr (.inr (.inr (.inl hw)))
    · obtain rfl : w = removal.1 := List.mem_singleton.mp hw
      exact .inr (.inr (.inl (List.mem_map_of_mem hremoval)))
  · cases hw
  · cases hw

/-- **How an event passes versions on.** -/
theorem handover_act {peers : Bool} (hpanic : d.panic = none) (hknown : d.mux.Known)
    (hs : d.act peers e = some d') : Handover e d d' := by
  have hidle : ∀ m clients, Handover e d { d with mux := m, clients := clients } := fun m clients =>
    handover_idle (by simp [hpanic])
  cases acts_of_act hs with
  | getCurrent => exact hidle _ _
  | getVersion name => exact hidle _ _
  | release hv => exact handover_release fun m => hidle m _
  | partitionsReady hv =>
    refine { hidle d.mux d.clients with
      complete := Finset.subset_insert _ _
      incomplete := fun h => by cases h
      ready := fun _ => .inl
      shuts := .keep rfl rfl rfl (by simp [hpanic]) }
  | ready hv hnew hdone =>
    refine { hidle d.mux d.clients with
      ready := fun w hw => ?_
      shuts := .keep rfl rfl rfl (by simp [hpanic]) }
    obtain rfl | hw := Finset.mem_insert.mp hw
    · exact .inr hdone
    · exact .inl hw
  | wake hv hready => exact handover_wake hpanic ⟨hv, hready⟩
  | refresh hnone =>
    refine handover_refresher hpanic ?_ rfl rfl
    rw [DB.toClose, hnone]
    rfl
  | close hnone order =>
    refine { hidle d.mux d.clients with
      pending := fun w hw => .inl ?_
      shuts := .begin order rfl hnone rfl }
    rw [mem_pending] at hw ⊢
    simp only [Option.elim, RefreshStage.pending, List.not_mem_nil, false_or] at hw
    tauto
  | listVersions hs => exact handover_onListVersions hpanic hs
  | newVersion hs => exact handover_onNewVersion hpanic hs
  | refresherNext hs => exact handover_refresherNext hpanic hs
  | upgrade hcall hnone => exact handover_upgrade hpanic hcall
  | upgraderNext hs => exact handover_upgraderNext hpanic hknown hs
  | remove hremoval hnone => exact handover_removal hpanic hremoval
  | cleanup hdue hnone dirs =>
    have hmove : Handover (.cleanup dirs) d
        { d with mux := d.mux, cleaner := some (.loop dirs) } :=
      handover_cleaner hpanic rfl rfl rfl
    exact { hmove with shuts := .keep rfl rfl rfl (by simp [hpanic]) }
  | cleanerNext hs => exact handover_cleanerNext hpanic hs

/-! ## What is known of the versions in hand -/

/-- Of a version that `removeVersion` has deleted there is no entry. -/
theorem Sound.removed (h : d.Sound) {v : VersionRef} (hv : v ∈ d.removed) :
    d.mux.Prepared v ∧ ¬ d.mux.Has v := by
  rcases hc : d.cleaner with _ | c
  · rw [DB.removed, hc] at hv
    cases hv
  · have hok := h.cleaner c hc
    rw [DB.removed, hc] at hv
    cases c with
    | remove call =>
      obtain ⟨w, shouldWait, stage⟩ := call
      cases stage with
      | deleted vs =>
        obtain rfl := List.mem_singleton.mp hv
        exact ⟨hok.1.1, hok.2.2.2⟩
      | _ => cases hv
    | close w =>
      obtain rfl := List.mem_singleton.mp hv
      exact hok
    | _ => cases hv

/-- What `removeVersion` is removing is older than the current version. -/
theorem Sound.removing (h : d.Sound) {v : VersionRef} (hv : v ∈ d.removing) : d.mux.Outdated v := by
  rcases hc : d.cleaner with _ | c
  · rw [DB.removing, hc] at hv
    cases hv
  · have hok := h.cleaner c hc
    rw [DB.removing, hc] at hv
    cases c with
    | remove call =>
      obtain ⟨w, shouldWait, stage⟩ := call
      obtain rfl : v = w := by
        cases stage with
        | marked vs | armed vs | expired vs => exact List.mem_singleton.mp hv
        | _ => cases hv
      exact hok.1.2
    | _ => cases hv

/-- A version is outdated if any version that was current is newer. -/
theorem Sound.outdated_iff (h : d.Sound) {v : VersionRef} :
    d.mux.Outdated v ↔ ∃ name ∈ d.currents, v.name < name := by
  obtain ⟨hsorted, hhead⟩ := h.currents
  constructor
  · rintro ⟨vs, hvs, hlt⟩
    rw [hvs, Option.map_some] at hhead
    exact ⟨_, List.mem_of_mem_head? hhead, hlt⟩
  · rintro ⟨name, hname, hlt⟩
    rcases hnames : d.currents with _ | ⟨last, earlier⟩
    · rw [hnames] at hname
      cases hname
    · rw [hnames] at hname hsorted hhead
      obtain ⟨vs, hvs, rfl⟩ := Option.map_eq_some_iff.mp hhead.symm
      refine ⟨vs, hvs, ?_⟩
      obtain rfl | hname := List.mem_cons.mp hname
      · exact hlt
      · exact lt_trans hlt (List.rel_of_pairwise_cons hsorted hname)

/-- What is outdated stays so. -/
theorem Handover.outdated (h : Handover e d d') (hsound : d.Sound) (hsound' : d'.Sound)
    {v : VersionRef} (hv : d.mux.Outdated v) : d'.mux.Outdated v := by
  obtain ⟨name, hname, hlt⟩ := hsound.outdated_iff.mp hv
  exact hsound'.outdated_iff.mpr ⟨name, h.currents.subset hname, hlt⟩

end DB

end Sequins
