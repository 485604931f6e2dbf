import Sequins.VersionMux
import Mathlib.Data.Finset.Insert

/-!
# A db

`db.go`, as a machine whose events are the critical sections of the goroutines that work
on one db. Three locks keep most of them apart, so at any time there is at most one holder
of each, and where it stands is a stage:

* `refreshLock`: `backfillVersions`, `refresh` and `close` (`RefreshStage`);
* `upgradeLock`: `upgrade` (`UpgradeStage`);
* `cleanupLock`: `removeVersion` and `cleanupStore` (`CleanStage`).

Goroutines that wait for a lock, or for a version to become ready, are kept in lists, from
which any may go on next. Taking a lock and the first critical section under it are one
event. Requests take and release references at any time.

`backfillVersions` is called once, by `refreshAll`, before anybody else has the db, so a new
db starts in it. What the backend lists, whether `newVersion` succeeds, when the last missing
partition of a version arrives and which directories are on disk come from outside. Builds,
the states of versions, advertising and the deletion of files have no part in this.
-/

namespace Sequins

/-! ## The goroutines

What a goroutine has in its local variables between two critical sections is in its stage. Where
the source calls a function with a lock held, the stage says to whom the function returns. -/

/-- Who called `switchVersion`. -/
inductive SwitchCaller where
  /-- `refresh` -/
  | refresh
  /-- `backfillVersions`, with the names it has not tried yet -/
  | backfill (rest : List Bytes)
  deriving DecidableEq, Repr

/-- Where the holder of `refreshLock` stands. -/
inductive RefreshStage where
  /-- `backfillVersions`, before `ListVersions` -/
  | backfill
  /-- `backfillVersions`, at the head of its loop -/
  | loop (names : List Bytes)
  /-- `refresh`, before it releases the current version -/
  | gotCurrent (current : Option VersionRef)
  /-- `refresh`, before `ListVersions` -/
  | list (after : Bytes)
  /-- `refresh`, before it looks for the latest version in the multiplexer -/
  | check (latest : Bytes)
  /-- `refresh`, before it releases the version it found -/
  | gotExisting (latest : Bytes) (existing : Option VersionRef)
  /-- `refresh`, before `newVersion` -/
  | create (latest : Bytes)
  /-- `switchVersion`, before `prepare` -/
  | switch (v : VersionRef) (caller : SwitchCaller)
  /-- `switchVersion`, before it looks whether the version is ready -/
  | select (v : VersionRef) (caller : SwitchCaller)
  /-- `switchVersion`, waiting for its call of `upgrade` -/
  | upgrade (v : VersionRef) (caller : SwitchCaller)
  /-- `close`, with the versions still to be closed -/
  | close (vs : List VersionRef)
  deriving DecidableEq, Repr

/-- A call of `upgrade`: by `switchVersion` itself, or by the goroutine it started. -/
structure UpgradeCall where
  /-- the version -/
  version : VersionRef
  /-- `switchVersion` waits for it -/
  sync : Bool
  deriving DecidableEq, Repr

/-- Where the holder of `upgradeLock` stands; all of them know the version that was current
when they took the lock. -/
inductive UpgradeStage where
  /-- before it releases the current version -/
  | gotCurrent (current : Option VersionRef)
  /-- before `mux.upgrade` -/
  | switch (current : Option VersionRef)
  /-- before it removes the older versions -/
  | sweep (current : Option VersionRef)
  deriving DecidableEq, Repr

/-- Where the holder of `cleanupLock` stands. -/
inductive CleanStage where
  /-- `removeVersion`, in `mux.remove` -/
  | remove (call : RemoveCall)
  /-- `removeVersion`, before it closes the version it got back -/
  | close (v : VersionRef)
  /-- `cleanupStore`, at the head of its loop -/
  | loop (dirs : List Bytes)
  /-- `cleanupStore`, before it releases the version it found -/
  | gotVersion (dir : Bytes) (v : Option VersionRef) (dirs : List Bytes)
  /-- `cleanupStore`, before it removes a directory -/
  | clear (dir : Bytes) (dirs : List Bytes)
  deriving DecidableEq, Repr

/-! References that are held on the way. -/

def RefreshStage.held : RefreshStage → List VersionRef
  | .gotCurrent current => current.toList
  | .gotExisting _ existing => existing.toList
  | _ => []

def UpgradeStage.held : UpgradeStage → List VersionRef
  | .gotCurrent current => current.toList
  | _ => []

def CleanStage.held : CleanStage → List VersionRef
  | .gotVersion _ v _ => v.toList
  | _ => []

/-- `switchVersion` returns: what its caller does next. A version that was ready ends
the loop of `backfillVersions`. -/
def SwitchCaller.resume (ready : Bool) : SwitchCaller → Option RefreshStage
  | .refresh => none
  | .backfill rest => some (.loop (if ready then [] else rest))

/-! ## The state

The multiplexer, the channels of the versions, the holders of the three locks, and the goroutines
that wait for a channel or for a lock. `currents` and `closes` are histories, which no event
reads. -/

/-- A call of `version.close` that returned. -/
structure Close where
  /-- the version -/
  version : VersionRef
  /-- by `db.close`, and not by `removeVersion` -/
  byDB : Bool
  deriving DecidableEq, Repr

/-- A db with everything that is going on in it. -/
structure DB where
  /-- `mux` -/
  mux : Mux
  /-- the version objects -/
  created : List VersionRef
  /-- those whose `partitions.ready` is closed -/
  partitionsReady : Finset VersionRef
  /-- those whose `ready` is closed -/
  ready : Finset VersionRef
  /-- those whose `cancel` is closed -/
  cancelled : Finset VersionRef
  /-- the holder of `refreshLock` -/
  refresher : Option RefreshStage
  /-- the holder of `upgradeLock` -/
  upgrader : Option (UpgradeCall × UpgradeStage)
  /-- the holder of `cleanupLock` -/
  cleaner : Option CleanStage
  /-- the references that requests hold -/
  clients : List VersionRef
  /-- goroutines of `switchVersion`, waiting for `ready` -/
  waiters : List VersionRef
  /-- calls of `upgrade`, waiting for `upgradeLock` -/
  upgrades : List UpgradeCall
  /-- calls of `removeVersion`, waiting for `cleanupLock` -/
  removals : List (VersionRef × Bool)
  /-- calls of `cleanupStore`, waiting for `cleanupLock` -/
  cleanups : ℕ
  /-- the process has panicked -/
  panic : Option Panic
  /-- history: the names of the current versions, latest first -/
  currents : List Bytes
  /-- history: the calls of `version.close`, latest first -/
  closes : List Close

/-- What can happen. -/
inductive DBEvent where
  /-- a request calls `getCurrent` -/
  | getCurrent
  /-- a request calls `getVersion` -/
  | getVersion (name : Bytes)
  /-- a request calls `release` -/
  | release (v : VersionRef)
  /-- the last missing partition of a version arrives -/
  | partitionsReady (v : VersionRef)
  /-- the goroutine of `newVersion` closes `ready` -/
  | ready (v : VersionRef)
  /-- the goroutine of `switchVersion` sees that -/
  | wake (v : VersionRef)
  /-- `refresh` takes its lock -/
  | refresh
  /-- `close` takes its lock -/
  | close (order : IterOrder (Σ _ : Bytes, Entry))
  /-- `ListVersions` returns, or fails -/
  | listVersions (names : Option (List Bytes))
  /-- `newVersion` returns, with whether the partitions are complete, or fails -/
  | newVersion (complete : Option Bool)
  /-- the holder of `refreshLock` goes on -/
  | refresherNext
  /-- `upgrade` takes its lock -/
  | upgrade (call : UpgradeCall)
  /-- the holder of `upgradeLock` goes on -/
  | upgraderNext (order : IterOrder (Σ _ : Bytes, Entry))
  /-- `removeVersion` takes its lock -/
  | remove (removal : VersionRef × Bool)
  /-- `cleanupStore` takes its lock and lists the directories -/
  | cleanup (dirs : List Bytes)
  /-- the holder of `cleanupLock` goes on -/
  | cleanerNext

/-- The backend lists distinct names greater than `after`. -/
def Lists (after : Bytes) (names : List Bytes) : Prop := names.Nodup ∧ ∀ name ∈ names, after < name

instance (after : Bytes) (names : List Bytes) : Decidable (Lists after names) :=
  inferInstanceAs (Decidable (_ ∧ _))

namespace DB

/-- `newDB`, with `backfillVersions` called. -/
def new : DB where
  mux := .new
  created := []
  partitionsReady := ∅
  ready := ∅
  cancelled := ∅
  refresher := some .backfill
  upgrader := none
  cleaner := none
  clients := []
  waiters := []
  upgrades := []
  removals := []
  cleanups := 0
  panic := none
  currents := []
  closes := []

/-- The references that were handed out and not released. -/
def references (d : DB) : List VersionRef :=
  d.clients ++ d.refresher.elim [] RefreshStage.held ++ d.upgrader.elim [] (fun u => u.2.held) ++
    d.cleaner.elim [] CleanStage.held

def unreleased (d : DB) (v : VersionRef) : ℕ := d.references.count v

/-- A method of the multiplexer that may panic, and how things go on if it does not. -/
def attempt (d : DB) (r : Except Panic Mux) (go : Mux → DB) : DB :=
  match r with
  | .error p => { d with panic := some p }
  | .ok m => go m

/-- `version.close`: it closes `cancel` and starts a goroutine, which closes the block store at some
later time (`StoresNode.closeStore`). -/
def closeVersion (d : DB) (v : VersionRef) (byDB : Bool) : DB :=
  if v ∈ d.cancelled then
    { d with panic := some .closeOfClosedChannel }
  else
    { d with
      cancelled := insert v d.cancelled
      closes := ⟨v, byDB⟩ :: d.closes }

/-- `newVersion`: a new object, whose `ready` is closed at once if it is complete. -/
def createVersion (d : DB) (name : Bytes) (complete : Bool) (caller : SwitchCaller) : DB :=
  let v : VersionRef := ⟨d.created.length, name⟩
  { d with
    created := v :: d.created
    partitionsReady := if complete then insert v d.partitionsReady else d.partitionsReady
    ready := if complete then insert v d.ready else d.ready
    refresher := some (.switch v caller) }

/-- A call of `upgrade` returns. -/
def upgradeReturns (d : DB) (call : UpgradeCall) : DB :=
  { d with
    upgrader := none
    refresher :=
      if call.sync then
        match d.refresher with
        | some (.upgrade _ caller) => caller.resume true
        | stage => stage
      else
        d.refresher }

/-- The removals that `upgrade` starts for the versions it finds. -/
def swept (current : Option VersionRef) (v : VersionRef) (all : List VersionRef) :
    List (VersionRef × Bool) :=
  all.filterMap fun old =>
    if some old = current then some (old, true)
    else if old.name < v.name then some (old, false)
    else none

/-! ## The events

Each function takes one critical section, and gives `none` if the goroutine does not stand where
it would be entered. What the environment decides is in the event: listings, whether a version is
complete, and the order in which a map is walked. -/

def onListVersions (d : DB) (names : Option (List Bytes)) : Option DB :=
  match d.refresher with
  | some .backfill =>
    match names with
    | none => some { d with refresher := none }
    | some names =>
      if Lists [] names then
        if names = [] then
          some { d with refresher := none }
        else
          -- the last three, newest first
          some { d with refresher := some (.loop (names.drop (names.length - 3)).reverse) }
      else
        none
  | some (.list after) =>
    match names with
    | none => some { d with refresher := none }
    | some names =>
      if Lists after names then
        some { d with refresher := names.getLast?.map .check }
      else
        none
  | _ => none

def onNewVersion (d : DB) (complete : Option Bool) : Option DB :=
  match d.refresher with
  | some (.loop (name :: rest)) =>
    match complete with
    | none => some { d with refresher := some (.loop rest) }
    | some complete => some (d.createVersion name complete (.backfill rest))
  | some (.create latest) =>
    match complete with
    | none => some { d with refresher := none }
    | some complete => some (d.createVersion latest complete .refresh)
  | _ => none

def refresherNext (d : DB) : Option DB :=
  match d.refresher with
  | some (.loop []) => some { d with refresher := none, cleanups := d.cleanups + 1 }
  | some (.gotCurrent current) =>
    some (d.attempt (d.mux.release current) fun m =>
      { d with mux := m, refresher := some (.list (current.elim [] VersionRef.name)) })
  | some (.check latest) =>
    some { d with
      mux := (d.mux.getVersion latest).1
      refresher := some (.gotExisting latest (d.mux.getVersion latest).2) }
  | some (.gotExisting latest existing) =>
    some (d.attempt (d.mux.release existing) fun m =>
      { d with mux := m, refresher := if existing.isSome then none else some (.create latest) })
  | some (.switch v caller) =>
    some (d.attempt (d.mux.prepare v) fun m =>
      { d with mux := m, refresher := some (.select v caller) })
  | some (.select v caller) =>
    if v ∈ d.ready then
      some { d with upgrades := ⟨v, true⟩ :: d.upgrades, refresher := some (.upgrade v caller) }
    else
      some { d with waiters := v :: d.waiters, refresher := caller.resume false }
  | some (.close []) => some { d with refresher := none }
  | some (.close (v :: vs)) => some { d.closeVersion v true with refresher := some (.close vs) }
  | _ => none

def upgraderNext (d : DB) (order : IterOrder (Σ _ : Bytes, Entry)) : Option DB :=
  match d.upgrader with
  | none => none
  | some (call, .gotCurrent current) =>
    some (d.attempt (d.mux.release current) fun m =>
      if ∃ c ∈ current, call.version.name < c.name then
        { d with mux := m, removals := (call.version, false) :: d.removals }.upgradeReturns call
      else if current = some call.version then
        { d with mux := m }.upgradeReturns call
      else
        { d with mux := m, upgrader := some (call, .switch current) })
  | some (call, .switch current) =>
    some (d.attempt (d.mux.upgrade call.version) fun m =>
      { d with
        mux := m
        upgrader := some (call, .sweep current)
        currents := call.version.name :: d.currents })
  | some (call, .sweep current) =>
    some ({ d with removals := swept current call.version (d.mux.getAll order) ++ d.removals }
      |>.upgradeReturns call)

def cleanerNext (d : DB) : Option DB :=
  match d.cleaner with
  | none => none
  | some (.remove call) =>
    match call.advance d.mux with
    | .next m stage => some { d with mux := m, cleaner := some (.remove { call with stage := stage }) }
    | .returnsNil => some { d with cleaner := none }
    | .returnsVersion => some { d with cleaner := some (.close call.version) }
    | .blocked => none
  | some (.close v) => some { d.closeVersion v false with cleaner := none }
  | some (.loop []) => some { d with cleaner := none }
  | some (.loop (dir :: dirs)) =>
    some { d with
      mux := (d.mux.getVersion dir).1
      cleaner := some (.gotVersion dir (d.mux.getVersion dir).2 dirs) }
  | some (.gotVersion dir v dirs) =>
    some (d.attempt (d.mux.release v) fun m =>
      { d with mux := m, cleaner := some (if v.isSome then .loop dirs else .clear dir dirs) })
  | some (.clear _ dirs) => some { d with cleaner := some (.loop dirs) }

/-- One event, on a node with or without peers. -/
def act (peers : Bool) (d : DB) : DBEvent → Option DB
  | .getCurrent =>
    some { d with mux := d.mux.getCurrent.1, clients := d.mux.getCurrent.2.toList ++ d.clients }
  | .getVersion name =>
    some { d with
      mux := (d.mux.getVersion name).1
      clients := (d.mux.getVersion name).2.toList ++ d.clients }
  | .release v =>
    if v ∈ d.clients then
      some (d.attempt (d.mux.release (some v)) fun m =>
        { d with mux := m, clients := d.clients.erase v })
    else
      none
  | .partitionsReady v =>
    if v ∈ d.created then some { d with partitionsReady := insert v d.partitionsReady } else none
  | .ready v =>
    if v ∈ d.created ∧ v ∉ d.ready ∧ (v ∈ d.cancelled ∨ v ∈ d.partitionsReady) then
      some { d with ready := insert v d.ready }
    else
      none
  | .wake v =>
    if v ∈ d.waiters ∧ v ∈ d.ready then
      some { d with waiters := d.waiters.erase v, upgrades := ⟨v, false⟩ :: d.upgrades }
    else
      none
  | .refresh =>
    if d.refresher = none then
      some { d with
        mux := d.mux.getCurrent.1
        refresher := some (.gotCurrent d.mux.getCurrent.2) }
    else
      none
  | .close order =>
    if d.refresher = none then
      some { d with refresher := some (.close (d.mux.getAll order)) }
    else
      none
  | .listVersions names => d.onListVersions names
  | .newVersion complete => d.onNewVersion complete
  | .refresherNext => d.refresherNext
  | .upgrade call =>
    if call ∈ d.upgrades ∧ d.upgrader = none then
      some { d with
        mux := d.mux.getCurrent.1
        upgrades := d.upgrades.erase call
        upgrader := some (call, .gotCurrent d.mux.getCurrent.2) }
    else
      none
  | .upgraderNext order => d.upgraderNext order
  | .remove removal =>
    if removal ∈ d.removals ∧ d.cleaner = none then
      some { d with
        removals := d.removals.erase removal
        cleaner := some (.remove ⟨removal.1, removal.2 && peers, .called⟩) }
    else
      none
  | .cleanup dirs =>
    if 0 < d.cleanups ∧ d.cleaner = none then
      some { d with cleanups := d.cleanups - 1, cleaner := some (.loop dirs) }
    else
      none
  | .cleanerNext => d.cleanerNext

/-- A panic ends everything. -/
def step (peers : Bool) (d : DB) (e : DBEvent) : Option DB :=
  if d.panic = none then d.act peers e else none

/-! ## What they can do

The functions above as relations, one case for each way through them: what is proved of every
event is proved by these cases. -/

/-- What a listing makes of the stage of the holder of `refreshLock`. -/
inductive Listed : RefreshStage → Option RefreshStage → Prop
  | backfillEnds : Listed .backfill none
  | backfill (names : List Bytes) (hlists : Lists [] names) :
      Listed .backfill (some (.loop (names.drop (names.length - 3)).reverse))
  | refreshEnds (after : Bytes) : Listed (.list after) none
  | refresh (after latest : Bytes) : Listed (.list after) (some (.check latest))

/-- What `newVersion` makes of a db. -/
inductive Creates (d : DB) : Option Bool → DB → Prop
  | backfillFails {name : Bytes} {rest : List Bytes}
      (hr : d.refresher = some (.loop (name :: rest))) :
      Creates d none { d with refresher := some (.loop rest) }
  | backfill {name : Bytes} {rest : List Bytes} (hr : d.refresher = some (.loop (name :: rest)))
      (complete : Bool) :
      Creates d (some complete) (d.createVersion name complete (.backfill rest))
  | refreshFails {latest : Bytes} (hr : d.refresher = some (.create latest)) :
      Creates d none { d with refresher := none }
  | refresh {latest : Bytes} (hr : d.refresher = some (.create latest)) (complete : Bool) :
      Creates d (some complete) (d.createVersion latest complete .refresh)

/-- The steps of the holder of `refreshLock`. -/
inductive Refreshes (d : DB) : DB → Prop
  | backfilled (hr : d.refresher = some (.loop [])) :
      Refreshes d { d with refresher := none, cleanups := d.cleanups + 1 }
  | gotCurrent {current : Option VersionRef} (hr : d.refresher = some (.gotCurrent current)) :
      Refreshes d (d.attempt (d.mux.release current) fun m =>
        { d with mux := m, refresher := some (.list (current.elim [] VersionRef.name)) })
  | check {latest : Bytes} (hr : d.refresher = some (.check latest)) :
      Refreshes d { d with
        mux := (d.mux.getVersion latest).1
        refresher := some (.gotExisting latest (d.mux.getVersion latest).2) }
  | gotExisting {latest : Bytes} {existing : Option VersionRef}
      (hr : d.refresher = some (.gotExisting latest existing)) :
      Refreshes d (d.attempt (d.mux.release existing) fun m =>
        { d with mux := m, refresher := if existing.isSome then none else some (.create latest) })
  | switch {v : VersionRef} {caller : SwitchCaller} (hr : d.refresher = some (.switch v caller)) :
      Refreshes d (d.attempt (d.mux.prepare v) fun m =>
        { d with mux := m, refresher := some (.select v caller) })
  | selectReady {v : VersionRef} {caller : SwitchCaller}
      (hr : d.refresher = some (.select v caller)) (hready : v ∈ d.ready) :
      Refreshes d { d with
        upgrades := ⟨v, true⟩ :: d.upgrades, refresher := some (.upgrade v caller) }
  | selectWaits {v : VersionRef} {caller : SwitchCaller}
      (hr : d.refresher = some (.select v caller)) :
      Refreshes d { d with waiters := v :: d.waiters, refresher := caller.resume false }
  | closed (hr : d.refresher = some (.close [])) : Refreshes d { d with refresher := none }
  | close {v : VersionRef} {vs : List VersionRef} (hr : d.refresher = some (.close (v :: vs))) :
      Refreshes d { d.closeVersion v true with refresher := some (.close vs) }

/-- The steps of the holder of `upgradeLock`. -/
inductive Upgrades (d : DB) (order : IterOrder (Σ _ : Bytes, Entry)) : DB → Prop
  | outdated {call : UpgradeCall} {current : Option VersionRef}
      (hu : d.upgrader = some (call, .gotCurrent current))
      (hold : ∃ c ∈ current, call.version.name < c.name) :
      Upgrades d order (d.attempt (d.mux.release current) fun m =>
        { d with mux := m, removals := (call.version, false) :: d.removals }.upgradeReturns call)
  | same {call : UpgradeCall} {current : Option VersionRef}
      (hu : d.upgrader = some (call, .gotCurrent current)) (hsame : current = some call.version) :
      Upgrades d order (d.attempt (d.mux.release current) fun m =>
        { d with mux := m }.upgradeReturns call)
  | newer {call : UpgradeCall} {current : Option VersionRef}
      (hu : d.upgrader = some (call, .gotCurrent current))
      (hold : ¬ ∃ c ∈ current, call.version.name < c.name) (hsame : current ≠ some call.version) :
      Upgrades d order (d.attempt (d.mux.release current) fun m =>
        { d with mux := m, upgrader := some (call, .switch current) })
  | switch {call : UpgradeCall} {current : Option VersionRef}
      (hu : d.upgrader = some (call, .switch current)) :
      Upgrades d order (d.attempt (d.mux.upgrade call.version) fun m =>
        { d with
          mux := m
          upgrader := some (call, .sweep current)
          currents := call.version.name :: d.currents })
  | sweep {call : UpgradeCall} {current : Option VersionRef}
      (hu : d.upgrader = some (call, .sweep current)) :
      Upgrades d order ({ d with
        removals := swept current call.version (d.mux.getAll order) ++ d.removals }
          |>.upgradeReturns call)

/-- The steps of the holder of `cleanupLock`. -/
inductive Cleans (d : DB) : DB → Prop
  | next {call : RemoveCall} (hc : d.cleaner = some (.remove call)) {m : Mux} {stage : RemoveStage}
      (hm : call.advance d.mux = .next m stage) :
      Cleans d { d with mux := m, cleaner := some (.remove { call with stage := stage }) }
  | returnsNil {call : RemoveCall} (hc : d.cleaner = some (.remove call))
      (hm : call.advance d.mux = .returnsNil) : Cleans d { d with cleaner := none }
  | returnsVersion {call : RemoveCall} (hc : d.cleaner = some (.remove call))
      (hm : call.advance d.mux = .returnsVersion) :
      Cleans d { d with cleaner := some (.close call.version) }
  | close {v : VersionRef} (hc : d.cleaner = some (.close v)) :
      Cleans d { d.closeVersion v false with cleaner := none }
  | cleaned (hc : d.cleaner = some (.loop [])) : Cleans d { d with cleaner := none }
  | loop {dir : Bytes} {dirs : List Bytes} (hc : d.cleaner = some (.loop (dir :: dirs))) :
      Cleans d { d with
        mux := (d.mux.getVersion dir).1
        cleaner := some (.gotVersion dir (d.mux.getVersion dir).2 dirs) }
  | gotVersion {dir : Bytes} {v : Option VersionRef} {dirs : List Bytes}
      (hc : d.cleaner = some (.gotVersion dir v dirs)) :
      Cleans d (d.attempt (d.mux.release v) fun m =>
        { d with mux := m, cleaner := some (if v.isSome then .loop dirs else .clear dir dirs) })
  | clear {dir : Bytes} {dirs : List Bytes} (hc : d.cleaner = some (.clear dir dirs)) :
      Cleans d { d with cleaner := some (.loop dirs) }

/-- What an event makes of a db. -/
inductive Acts (peers : Bool) (d : DB) : DBEvent → DB → Prop
  | getCurrent : Acts peers d .getCurrent { d with
      mux := d.mux.getCurrent.1, clients := d.mux.getCurrent.2.toList ++ d.clients }
  | getVersion (name : Bytes) : Acts peers d (.getVersion name) { d with
      mux := (d.mux.getVersion name).1
      clients := (d.mux.getVersion name).2.toList ++ d.clients }
  | release {v : VersionRef} (hv : v ∈ d.clients) :
      Acts peers d (.release v) (d.attempt (d.mux.release (some v)) fun m =>
        { d with mux := m, clients := d.clients.erase v })
  | partitionsReady {v : VersionRef} (hv : v ∈ d.created) :
      Acts peers d (.partitionsReady v) { d with partitionsReady := insert v d.partitionsReady }
  | ready {v : VersionRef} (hv : v ∈ d.created) (hnew : v ∉ d.ready)
      (hdone : v ∈ d.cancelled ∨ v ∈ d.partitionsReady) :
      Acts peers d (.ready v) { d with ready := insert v d.ready }
  | wake {v : VersionRef} (hv : v ∈ d.waiters) (hready : v ∈ d.ready) :
      Acts peers d (.wake v) { d with
        waiters := d.waiters.erase v, upgrades := ⟨v, false⟩ :: d.upgrades }
  | refresh (hnone : d.refresher = none) : Acts peers d .refresh { d with
      mux := d.mux.getCurrent.1, refresher := some (.gotCurrent d.mux.getCurrent.2) }
  | close (hnone : d.refresher = none) (order : IterOrder (Σ _ : Bytes, Entry)) :
      Acts peers d (.close order) { d with refresher := some (.close (d.mux.getAll order)) }
  | listVersions {names : Option (List Bytes)} {d' : DB}
      (hs : d.onListVersions names = some d') : Acts peers d (.listVersions names) d'
  | newVersion {complete : Option Bool} {d' : DB} (hs : d.onNewVersion complete = some d') :
      Acts peers d (.newVersion complete) d'
  | refresherNext {d' : DB} (hs : d.refresherNext = some d') : Acts peers d .refresherNext d'
  | upgrade {call : UpgradeCall} (hcall : call ∈ d.upgrades) (hnone : d.upgrader = none) :
      Acts peers d (.upgrade call) { d with
        mux := d.mux.getCurrent.1
        upgrades := d.upgrades.erase call
        upgrader := some (call, .gotCurrent d.mux.getCurrent.2) }
  | upgraderNext {order : IterOrder (Σ _ : Bytes, Entry)} {d' : DB}
      (hs : d.upgraderNext order = some d') : Acts peers d (.upgraderNext order) d'
  | remove {removal : VersionRef × Bool} (hremoval : removal ∈ d.removals)
      (hnone : d.cleaner = none) :
      Acts peers d (.remove removal) { d with
        removals := d.removals.erase removal
        cleaner := some (.remove ⟨removal.1, removal.2 && peers, .called⟩) }
  | cleanup (hdue : 0 < d.cleanups) (hnone : d.cleaner = none) (dirs : List Bytes) :
      Acts peers d (.cleanup dirs) { d with
        cleanups := d.cleanups - 1, cleaner := some (.loop dirs) }
  | cleanerNext {d' : DB} (hs : d.cleanerNext = some d') : Acts peers d .cleanerNext d'

section Cases

variable {d d' : DB}

theorem listed_of_onListVersions {names : Option (List Bytes)}
    (hs : d.onListVersions names = some d') :
    ∃ r r', d.refresher = some r ∧ Listed r r' ∧ d' = { d with refresher := r' } := by
  rw [onListVersions.eq_def] at hs
  split at hs
  · rename_i hr
    split at hs
    · exact ⟨_, _, hr, .backfillEnds, (Option.some.inj hs).symm⟩
    · split_ifs at hs with hlists
      · exact ⟨_, _, hr, .backfillEnds, (Option.some.inj hs).symm⟩
      · exact ⟨_, _, hr, .backfill _ hlists, (Option.some.inj hs).symm⟩
  · rename_i after hr
    split at hs
    · exact ⟨_, _, hr, .refreshEnds after, (Option.some.inj hs).symm⟩
    · rename_i names
      split_ifs at hs
      refine ⟨_, names.getLast?.map .check, hr, ?_, (Option.some.inj hs).symm⟩
      cases names.getLast? with
      | none => exact .refreshEnds after
      | some latest => exact .refresh after latest
  · cases hs

/-- `newVersion` fails, or makes a new version. -/
theorem creates_of_onNewVersion {complete : Option Bool} (hs : d.onNewVersion complete = some d') :
    d.Creates complete d' := by
  rw [onNewVersion] at hs
  split at hs
  · rename_i hr
    cases complete with
    | none => exact Option.some.inj hs ▸ .backfillFails hr
    | some complete => exact Option.some.inj hs ▸ .backfill hr complete
  · rename_i hr
    cases complete with
    | none => exact Option.some.inj hs ▸ .refreshFails hr
    | some complete => exact Option.some.inj hs ▸ .refresh hr complete
  · cases hs

theorem onNewVersion_some {complete : Bool} (hs : d.onNewVersion (some complete) = some d') :
    ∃ name caller, d' = d.createVersion name complete caller := by
  cases creates_of_onNewVersion hs with
  | backfill hr => exact ⟨_, _, rfl⟩
  | refresh hr => exact ⟨_, _, rfl⟩

/-- One constructor for each stage from which `refreshLock`'s holder goes on by itself. -/
theorem refreshes_of_refresherNext (hs : d.refresherNext = some d') : d.Refreshes d' := by
  rw [refresherNext] at hs
  split at hs
  · rename_i hr
    exact Option.some.inj hs ▸ .backfilled hr
  · rename_i hr
    exact Option.some.inj hs ▸ .gotCurrent hr
  · rename_i hr
    exact Option.some.inj hs ▸ .check hr
  · rename_i hr
    exact Option.some.inj hs ▸ .gotExisting hr
  · rename_i hr
    exact Option.some.inj hs ▸ .switch hr
  · rename_i hr
    split_ifs at hs with hready
    · exact Option.some.inj hs ▸ .selectReady hr hready
    · exact Option.some.inj hs ▸ .selectWaits hr
  · rename_i hr
    exact Option.some.inj hs ▸ .closed hr
  · rename_i hr
    exact Option.some.inj hs ▸ .close hr
  · cases hs

/-- The same for `upgradeLock`, whose holder looks at the multiplexer twice. -/
theorem upgrades_of_upgraderNext {order : IterOrder (Σ _ : Bytes, Entry)}
    (hs : d.upgraderNext order = some d') : d.Upgrades order d' := by
  rw [upgraderNext] at hs
  split at hs
  · cases hs
  · rename_i call current hu
    obtain rfl := Option.some.inj hs
    by_cases hold : ∃ c ∈ current, call.version.name < c.name
    · simp only [if_pos hold]
      exact .outdated hu hold
    · by_cases hsame : current = some call.version
      · simp only [if_neg hold, if_pos hsame]
        exact .same hu hsame
      · simp only [if_neg hold, if_neg hsame]
        exact .newer hu hold hsame
  · rename_i hu
    exact Option.some.inj hs ▸ .switch hu
  · rename_i hu
    exact Option.some.inj hs ▸ .sweep hu

theorem cleans_of_cleanerNext (hs : d.cleanerNext = some d') : d.Cleans d' := by
  rw [cleanerNext] at hs
  split at hs
  · cases hs
  · rename_i hc
    split at hs
    · rename_i hm
      exact Option.some.inj hs ▸ .next hc hm
    · rename_i hm
      exact Option.some.inj hs ▸ .returnsNil hc hm
    · rename_i hm
      exact Option.some.inj hs ▸ .returnsVersion hc hm
    · cases hs
  · rename_i hc
    exact Option.some.inj hs ▸ .close hc
  · rename_i hc
    exact Option.some.inj hs ▸ .cleaned hc
  · rename_i hc
    exact Option.some.inj hs ▸ .loop hc
  · rename_i hc
    exact Option.some.inj hs ▸ .gotVersion hc
  · rename_i hc
    exact Option.some.inj hs ▸ .clear hc

/-- **An event does one of these.** Everything that is proved of all events starts here. -/
theorem acts_of_act {peers : Bool} {e : DBEvent} (hs : d.act peers e = some d') :
    d.Acts peers e d' := by
  cases e with
  | getCurrent => exact Option.some.inj hs ▸ .getCurrent
  | getVersion name => exact Option.some.inj hs ▸ .getVersion name
  | release v =>
    obtain ⟨hv, hs⟩ := Option.ite_none_right_eq_some.mp hs
    exact Option.some.inj hs ▸ .release hv
  | partitionsReady v =>
    obtain ⟨hv, hs⟩ := Option.ite_none_right_eq_some.mp hs
    exact Option.some.inj hs ▸ .partitionsReady hv
  | ready v =>
    obtain ⟨⟨hv, hnew, hdone⟩, hs⟩ := Option.ite_none_right_eq_some.mp hs
    exact Option.some.inj hs ▸ .ready hv hnew hdone
  | wake v =>
    obtain ⟨⟨hv, hready⟩, hs⟩ := Option.ite_none_right_eq_some.mp hs
    exact Option.some.inj hs ▸ .wake hv hready
  | refresh =>
    obtain ⟨hnone, hs⟩ := Option.ite_none_right_eq_some.mp hs
    exact Option.some.inj hs ▸ .refresh hnone
  | close order =>
    obtain ⟨hnone, hs⟩ := Option.ite_none_right_eq_some.mp hs
    exact Option.some.inj hs ▸ .close hnone order
  | listVersions names => exact .listVersions hs
  | newVersion complete => exact .newVersion hs
  | refresherNext => exact .refresherNext hs
  | upgrade call =>
    obtain ⟨⟨hcall, hnone⟩, hs⟩ := Option.ite_none_right_eq_some.mp hs
    exact Option.some.inj hs ▸ .upgrade hcall hnone
  | upgraderNext order => exact .upgraderNext hs
  | remove removal =>
    obtain ⟨⟨hremoval, hnone⟩, hs⟩ := Option.ite_none_right_eq_some.mp hs
    exact Option.some.inj hs ▸ .remove hremoval hnone
  | cleanup dirs =>
    obtain ⟨⟨hdue, hnone⟩, hs⟩ := Option.ite_none_right_eq_some.mp hs
    exact Option.some.inj hs ▸ .cleanup hdue hnone dirs
  | cleanerNext => exact .cleanerNext hs

end Cases

end DB

/-- Every interleaving on one db. -/
def dbMachine (peers : Bool) : Machine DB DBEvent := .ofStep .new (DB.step peers)

end Sequins
