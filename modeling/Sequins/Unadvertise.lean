import Sequins.Advertise
import Sequins.Handover
import Sequins.Peers

/-!
# Advertising the versions of a db

The partitions of the versions beside `dbMachine`, with everybody who advertises them or stops:
`switchVersion` starts a build and then advertises, between `prepare` and its look at `ready`; a
build adds partitions once it is through; and `version.close` leaves it to a goroutine to wait for
the version's `buildLock` and run `partitions.close`. So the events of this machine are those of the
db, the critical sections of these goroutines, and whatever happens to the session.

What is registered with the watcher is created again after every reconnect. A version can be
removed as soon as it is prepared, so nothing keeps `partitions.close` from running before
`switchVersion` has come to `advertisePartitions`; then the znodes of a removed version stay
registered (`removed_before_advertised`). As long as this does not happen, what is registered is
advertised by a version whose `partitions.close` has not run (`removed_unadvertised`).
-/

namespace Sequins

/-! ## The machine -/

/-- What `switchVersion` has still to do for a version that it has prepared. -/
inductive StartStage where
  /-- it is going to start `build` -/
  | build
  /-- it is going to call `advertisePartitions` -/
  | advertise
  deriving DecidableEq

/-- Where a call of `build` stands that has the version's `buildLock`. -/
inductive BuildStage where
  /-- it waits for the locks of the db and of the process -/
  | waiting
  /-- in `addFiles`, before it looks at `cancel` -/
  | look (partitions : Finset ℤ)
  /-- in `addFiles`, after it: a file is added, or the block store saved -/
  | load (partitions : Finset ℤ)
  deriving DecidableEq

/-- A db with the partitions of its versions. -/
structure AdvertisingDB where
  /-- the db -/
  db : DB
  /-- `vs.partitions` -/
  partitions : VersionRef → Option Advertiser
  /-- the watcher -/
  session : ZkSession
  /-- where `switchVersion` stands, between `prepare` and its look at `ready` -/
  starting : Option (VersionRef × StartStage)
  /-- calls of `build`, waiting for the version's `buildLock` -/
  builds : List VersionRef
  /-- the holders of `vs.buildLock` -/
  building : VersionRef → Option BuildStage
  /-- the holder of `db.buildLock` -/
  dbBuilder : Option VersionRef
  /-- `vs.built` -/
  built : Finset VersionRef
  /-- goroutines of `version.close`, waiting for the version's `buildLock` -/
  closers : List VersionRef
  /-- history: the versions whose `partitions.close` has run -/
  closed : Finset VersionRef

/-- What can happen. -/
inductive AdvertisingEvent where
  /-- an event of the db -/
  | db (e : DBEvent)
  /-- `newVersion` returns a version, with the first list of children and what a manifest has -/
  | newVersion (numPartitions : ℕ) (selected : Finset ℤ) (nodes : List Bytes)
      (manifest : Option (Finset ℤ))
  /-- a list of children arrives -/
  | remote (v : VersionRef) (nodes : List Bytes)
  /-- `switchVersion` starts `build` -/
  | startBuild
  /-- `switchVersion` calls `advertisePartitions` -/
  | advertise (order : SetOrder ℤ)
  /-- `build` takes the version's lock -/
  | build (v : VersionRef)
  /-- `build` takes the other locks and looks what is needed -/
  | plan (v : VersionRef)
  /-- `build` looks at `cancel` before it adds a file -/
  | look (v : VersionRef)
  /-- `build` has added a file, and there are more -/
  | nextFile (v : VersionRef)
  /-- something fails in `build` -/
  | buildFails (v : VersionRef)
  /-- `build` has saved the block store, and updates the partitions -/
  | buildDone (v : VersionRef) (order : SetOrder ℤ)
  /-- the goroutine of `version.close` takes the lock and runs `partitions.close` -/
  | closePartitions (v : VersionRef) (order : SetOrder ℤ)
  /-- what the server does, and the run loop, and other goroutines that use the watcher -/
  | server (tree : ZooKeeper.Tree) (session : ℕ) (errs : List ZkFailure)

/-- The holder of `refreshLock` goes on. -/
def DBEvent.isRefresherNext : DBEvent → Bool
  | .refresherNext => true
  | _ => false

/-- The version that `switchVersion` has just prepared. -/
def DB.prepares (d : DB) : DBEvent → Option VersionRef
  | .refresherNext =>
    match d.refresher with
    | some (.switch v _) => some v
    | _ => none
  | _ => none

/-- The version in the pipeline for which `refresh` starts another `build`. -/
def DB.retries (d : DB) : DBEvent → Option VersionRef
  | .refresherNext =>
    match d.refresher with
    | some (.gotExisting _ existing) => existing
    | _ => none
  | _ => none

namespace AdvertisingDB

/-- A new db of a node whose watcher has the prefix `root`. -/
def new (root : Bytes) : AdvertisingDB where
  db := .new
  partitions := fun _ => none
  session := ⟨root, 0, fun _ => none, ∅, []⟩
  starting := none
  builds := []
  building := fun _ => none
  dbBuilder := none
  built := ∅
  closers := []
  closed := ∅

/-- The partitions of a version are updated, which may close `partitions.ready`. -/
def setPartitions (s : AdvertisingDB) (v : VersionRef) (a a' : Advertiser) (w : ZkSession) :
    Option AdvertisingDB :=
  (if a'.partitions.readyClosed ∧ ¬ a.partitions.readyClosed then
      s.db.act true (.partitionsReady v)
    else
      some s.db).map fun d =>
    { s with db := d, partitions := Function.update s.partitions v (some a'), session := w }

/-- A call of `build` returns. -/
def release (s : AdvertisingDB) (v : VersionRef) : AdvertisingDB :=
  { s with building := Function.update s.building v none, dbBuilder := none }

/-- One event, in the db of that name on the node with that address. -/
def act (name : Bytes) (address : Address) (s : AdvertisingDB) :
    AdvertisingEvent → Option AdvertisingDB
  | .db e =>
    -- `switchVersion` goes on with the db once it has advertised the version
    if e.completes || e.isRefresherNext && s.starting.isSome then
      none
    else
      (s.db.act true e).map fun d =>
        { s with
          db := d
          starting := ((s.db.prepares e).map fun v => (v, .build)).or s.starting
          builds := (s.db.retries e).toList ++ s.builds
          closers := (d.closes.take (d.closes.length - s.db.closes.length)).map Close.version ++
            s.closers }
  | .newVersion numPartitions selected nodes manifest =>
    (Partitions.watchChildren (some address) numPartitions selected nodes).bind fun p =>
      let p := manifest.elim p p.updateLocalPartitions
      (s.db.act true (.newVersion (some p.readyClosed))).bind fun d =>
        d.created.head?.map fun v =>
          { s with
            db := d
            partitions := Function.update s.partitions v
              (some ⟨p, zkPath name v.name, false⟩) }
  | .remote v nodes =>
    (s.partitions v).bind fun a => (a.partitions.updateRemotePartitions nodes).bind fun p =>
      s.setPartitions v a { a with partitions := p } s.session
  | .startBuild =>
    match s.starting with
    | some (v, .build) =>
      some { s with starting := some (v, .advertise), builds := v :: s.builds }
    | _ => none
  | .advertise order =>
    match s.starting with
    | some (v, .advertise) =>
      (s.partitions v).map fun a =>
        let r := a.advertisePartitions s.session order
        { s with
          starting := none
          partitions := Function.update s.partitions v (some r.1)
          session := r.2 }
    | _ => none
  | .build v =>
    if v ∈ s.builds ∧ s.building v = none then
      if v ∈ s.built then
        some { s with builds := s.builds.erase v }
      else
        some { s with
          builds := s.builds.erase v
          building := Function.update s.building v (some .waiting) }
    else
      none
  | .plan v =>
    if s.building v = some .waiting ∧ s.dbBuilder = none then
      (s.partitions v).map fun a =>
        if a.partitions.needed = ∅ then
          { s.release v with built := insert v s.built }
        else
          { s with
            building := Function.update s.building v (some (.look a.partitions.needed))
            dbBuilder := some v }
    else
      none
  | .look v =>
    match s.building v with
    | some (.look partitions) =>
      if v ∈ s.db.cancelled then
        some (s.release v)
      else
        some { s with building := Function.update s.building v (some (.load partitions)) }
    | _ => none
  | .nextFile v =>
    match s.building v with
    | some (.load partitions) =>
      some { s with building := Function.update s.building v (some (.look partitions)) }
    | _ => none
  | .buildFails v =>
    match s.building v with
    | some (.look _) => some (s.release v)
    | some (.load _) => some (s.release v)
    | _ => none
  | .buildDone v order =>
    match s.building v with
    | some (.load partitions) =>
      (s.partitions v).bind fun a =>
        let r := a.updateLocalPartitions s.session partitions order
        ({ s.release v with built := insert v s.built }).setPartitions v a r.1 r.2
    | _ => none
  | .closePartitions v order =>
    if v ∈ s.closers ∧ s.building v = none then
      (s.partitions v).map fun a =>
        let r := a.unadvertisePartitions s.session order
        { s with
          closers := s.closers.erase v
          partitions := Function.update s.partitions v (some r.1)
          session := r.2
          closed := insert v s.closed }
    else
      none
  | .server tree session errs =>
    some { s with session := { s.session with tree := tree, session := session, errs := errs } }

/-- A panic ends everything. -/
def step (name : Bytes) (address : Address) (s : AdvertisingDB) (e : AdvertisingEvent) :
    Option AdvertisingDB :=
  if s.db.panic = none then s.act name address e else none

end AdvertisingDB

/-- Every interleaving on one db of a node with peers. -/
def advertisingMachine (name root : Bytes) (address : Address) :
    Machine AdvertisingDB AdvertisingEvent :=
  .ofStep (.new root) (AdvertisingDB.step name address)

namespace AdvertisingDB

variable {name root : Bytes} {address : Address} {s s' : AdvertisingDB} {e : AdvertisingEvent}

/-! ## What they can do -/

/-- The events of this machine, one case for each way to touch the partitions or the watcher. -/
inductive Moves (name : Bytes) (address : Address) (s : AdvertisingDB) :
    AdvertisingEvent → AdvertisingDB → Prop
  | db {ev : DBEvent} {d : DB} (hd : s.db.act true ev = some d)
      {starting : Option (VersionRef × StartStage)} {builds : List VersionRef} :
      Moves name address s (.db ev) { s with
        db := d
        starting := starting
        builds := builds
        closers := (d.closes.take (d.closes.length - s.db.closes.length)).map Close.version ++
          s.closers }
  | newVersion {numPartitions : ℕ} {selected : Finset ℤ} {nodes : List Bytes}
      {manifest : Option (Finset ℤ)} {p : Partitions} {d : DB} {v : VersionRef}
      (hpeers : p.peers = some address)
      (hd : s.db.act true (.newVersion (some p.readyClosed)) = some d)
      (hv : d.created.head? = some v) :
      Moves name address s (.newVersion numPartitions selected nodes manifest) { s with
        db := d
        partitions := Function.update s.partitions v
          (some ⟨p, zkPath name v.name, false⟩) }
  | remote {v : VersionRef} {nodes : List Bytes} {a : Advertiser} {p : Partitions} {d : DB}
      (ha : s.partitions v = some a) (hp : a.partitions.updateRemotePartitions nodes = some p)
      (hd : d = s.db ∨ s.db.act true (.partitionsReady v) = some d) :
      Moves name address s (.remote v nodes) { s with
        db := d, partitions := Function.update s.partitions v (some { a with partitions := p }) }
  /-- a step of a build or of `switchVersion` that does neither; adding files goes on only if the
  version is not canceled -/
  | work {e : AdvertisingEvent} {starting : Option (VersionRef × StartStage)}
      {builds : List VersionRef} {building : VersionRef → Option BuildStage}
      {dbBuilder : Option VersionRef} {built : Finset VersionRef}
      (hload : ∀ v p, building v = some (.load p) →
        s.building v = some (.load p) ∨ v ∉ s.db.cancelled) :
      Moves name address s e { s with
        starting := starting, builds := builds, building := building, dbBuilder := dbBuilder
        built := built }
  | advertise {order : SetOrder ℤ} {v : VersionRef} {a : Advertiser}
      (hstart : s.starting = some (v, .advertise)) (ha : s.partitions v = some a) :
      Moves name address s (.advertise order) { s with
        starting := none
        partitions := Function.update s.partitions v
          (some (a.advertisePartitions s.session order).1)
        session := (a.advertisePartitions s.session order).2 }
  | buildDone {v : VersionRef} {order : SetOrder ℤ} {loaded : Finset ℤ} {a : Advertiser} {d : DB}
      (hload : s.building v = some (.load loaded)) (ha : s.partitions v = some a)
      (hd : d = s.db ∨ s.db.act true (.partitionsReady v) = some d) :
      Moves name address s (.buildDone v order) { s.release v with
        built := insert v s.built
        db := d
        partitions := Function.update s.partitions v
          (some (a.updateLocalPartitions s.session loaded order).1)
        session := (a.updateLocalPartitions s.session loaded order).2 }
  | closePartitions {v : VersionRef} {order : SetOrder ℤ} {a : Advertiser} (hv : v ∈ s.closers)
      (hfree : s.building v = none) (ha : s.partitions v = some a) :
      Moves name address s (.closePartitions v order) { s with
        closers := s.closers.erase v
        partitions := Function.update s.partitions v
          (some (a.unadvertisePartitions s.session order).1)
        session := (a.unadvertisePartitions s.session order).2
        closed := insert v s.closed }
  | server {tree : ZooKeeper.Tree} {session : ℕ} {errs : List ZkFailure} :
      Moves name address s (.server tree session errs) { s with
        session := { s.session with tree := tree, session := session, errs := errs } }

/-- The db is told if the channel was closed, and otherwise not. -/
theorem setPartitions_cases {v : VersionRef} {a a' : Advertiser} {w : ZkSession}
    (hs : s.setPartitions v a a' w = some s') :
    ∃ d, (d = s.db ∨ s.db.act true (.partitionsReady v) = some d) ∧
      s' = { s with
        db := d, partitions := Function.update s.partitions v (some a'), session := w } := by
  obtain ⟨d, hd, rfl⟩ := Option.map_eq_some_iff.mp hs
  refine ⟨d, ?_, rfl⟩
  split at hd
  · exact .inr hd
  · exact .inl (Option.some.inj hd).symm

/-- A build that returns, or has not come to adding files. -/
theorem load_of_update {v : VersionRef} {stage : Option BuildStage}
    (hstage : ∀ p, stage ≠ some (.load p)) (u : VersionRef) (p : Finset ℤ)
    (h : Function.update s.building v stage u = some (.load p)) :
    s.building u = some (.load p) ∨ u ∉ s.db.cancelled := by
  by_cases hu : u = v
  · subst hu
    rw [Function.update_self] at h
    exact absurd h (hstage p)
  · rw [Function.update_of_ne hu] at h
    exact .inl h

/-- A node knows its own address from the start. -/
theorem watchChildren_peers {peers : Option Address} {numPartitions : ℕ} {selected : Finset ℤ}
    {nodes : List Bytes} {p : Partitions}
    (h : Partitions.watchChildren peers numPartitions selected nodes = some p) :
    p.peers = peers := by
  obtain ⟨q, hq, rfl⟩ := Option.map_eq_some_iff.mp h
  rw [Partitions.updateMissing_eq]
  exact (Partitions.updateRemotePartitions_frame hq).1

theorem moves_of_act (hs : s.act name address e = some s') : Moves name address s e s' := by
  cases e with
  | db ev =>
    rw [act] at hs
    split at hs
    · cases hs
    · obtain ⟨d, hd, rfl⟩ := Option.map_eq_some_iff.mp hs
      exact .db hd
  | newVersion numPartitions selected nodes manifest =>
    obtain ⟨p, hp, hs⟩ := Option.bind_eq_some_iff.mp hs
    obtain ⟨d, hd, hs⟩ := Option.bind_eq_some_iff.mp hs
    obtain ⟨v, hv, rfl⟩ := Option.map_eq_some_iff.mp hs
    have hpeers := watchChildren_peers hp
    refine .newVersion ?_ hd hv
    cases manifest with
    | none => exact hpeers
    | some loaded => exact (Partitions.updateLocalPartitions_peers p loaded).trans hpeers
  | remote v nodes =>
    obtain ⟨a, ha, hs⟩ := Option.bind_eq_some_iff.mp hs
    obtain ⟨p, hp, hs⟩ := Option.bind_eq_some_iff.mp hs
    obtain ⟨d, hd, rfl⟩ := setPartitions_cases hs
    exact .remote ha hp hd
  | startBuild =>
    rw [act] at hs
    split at hs
    · obtain rfl := Option.some.inj hs
      exact .work fun _ _ h => .inl h
    · cases hs
  | advertise order =>
    rw [act] at hs
    split at hs
    · rename_i hstart
      obtain ⟨a, ha, rfl⟩ := Option.map_eq_some_iff.mp hs
      exact .advertise hstart ha
    · cases hs
  | build v =>
    rw [act] at hs
    split_ifs at hs
    · obtain rfl := Option.some.inj hs
      exact .work fun _ _ h => .inl h
    · obtain rfl := Option.some.inj hs
      exact .work (load_of_update (by simp))
  | plan v =>
    rw [act] at hs
    split at hs
    · obtain ⟨a, ha, rfl⟩ := Option.map_eq_some_iff.mp hs
      split
      · exact .work (load_of_update (by simp))
      · exact .work (load_of_update (by simp))
    · cases hs
  | look v =>
    rw [act] at hs
    split at hs
    · split_ifs at hs with hcancelled
      · obtain rfl := Option.some.inj hs
        exact .work (load_of_update (by simp))
      · obtain rfl := Option.some.inj hs
        refine .work fun u p h => ?_
        by_cases hu : u = v
        · exact .inr (hu ▸ hcancelled)
        · rw [Function.update_of_ne hu] at h
          exact .inl h
    · cases hs
  | nextFile v =>
    rw [act] at hs
    split at hs
    · obtain rfl := Option.some.inj hs
      exact .work (load_of_update (by simp))
    · cases hs
  | buildFails v =>
    rw [act] at hs
    split at hs
    · obtain rfl := Option.some.inj hs
      exact .work (load_of_update (by simp))
    · obtain rfl := Option.some.inj hs
      exact .work (load_of_update (by simp))
    · cases hs
  | buildDone v order =>
    rw [act] at hs
    split at hs
    · rename_i hload
      obtain ⟨a, ha, hs⟩ := Option.bind_eq_some_iff.mp hs
      obtain ⟨d, hd, rfl⟩ := setPartitions_cases hs
      exact .buildDone hload ha hd
    · cases hs
  | closePartitions v order =>
    rw [act] at hs
    split at hs
    · rename_i hfree
      obtain ⟨a, ha, rfl⟩ := Option.map_eq_some_iff.mp hs
      exact .closePartitions hfree.1 hfree.2 ha
    · cases hs
  | server tree session errs =>
    obtain rfl := Option.some.inj hs
    exact .server

/-- The db moves by events of its own. -/
theorem Moves.db_eq_or (h : Moves name address s e s') :
    s'.db = s.db ∨ ∃ ev, s.db.act true ev = some s'.db := by
  cases h with
  | db hd => exact .inr ⟨_, hd⟩
  | newVersion hpeers hd hv => exact .inr ⟨_, hd⟩
  | remote ha hp hd => exact hd.imp id fun hd => ⟨_, hd⟩
  | buildDone hload ha hd => exact hd.imp id fun hd => ⟨_, hd⟩
  | _ => exact .inl rfl

/-- The db is one that `dbMachine` reaches. -/
theorem reachable_db (h : (advertisingMachine name root address).Reachable s) :
    (dbMachine true).Reachable s.db := by
  induction h with
  | start hs =>
    rw [show _ = AdvertisingDB.new root from hs]
    exact .start rfl
  | step _ hs ih =>
    change step name address _ _ = some _ at hs
    rw [step] at hs
    split at hs
    · rename_i hpanic
      obtain heq | ⟨ev, hev⟩ := (moves_of_act hs).db_eq_or
      · rwa [heq]
      · exact ih.step (e := ev) ((if_pos hpanic).trans hev)
    · cases hs

/-! ## Who has registered what

`Held` is an invariant of what is registered with the watcher, and not of what the server has:
after a reconnect the server has what is registered. Whatever is registered must have a version
that still advertises it, so `partitions.close` has to find all that its version has put there. -/

/-- The path of the znode of a version's partition. -/
def path (name root : Bytes) (address : Address) (v : VersionRef) (partition : ℤ) : Bytes :=
  partitionPath root (zkPath name v.name) address partition

/-- The version has the partition and advertises it. -/
def Advertises (s : AdvertisingDB) (v : VersionRef) (partition : ℤ) : Prop :=
  ∃ a, s.partitions v = some a ∧ a.shouldAdvertise = true ∧
    partition ∈ a.partitions.localPartitions

/-- `advertisePartitions` is executed before the version's `partitions.close`, or there is nothing
to advertise. -/
def AdvertisesInTime (s : AdvertisingDB) : AdvertisingEvent → Prop
  | .advertise _ => ∀ v ∈ s.closed, s.starting = some (v, .advertise) →
      ∀ a ∈ s.partitions v, a.partitions.localPartitions = ∅
  | _ => True

instance (s : AdvertisingDB) : DecidablePred s.AdvertisesInTime
  | .advertise _ => inferInstanceAs (Decidable (∀ v ∈ s.closed, _ → ∀ a ∈ s.partitions v, _))
  | .db _ | .newVersion .. | .remote .. | .startBuild | .build _ | .plan _ | .look _ | .nextFile _
  | .buildFails _ | .buildDone .. | .closePartitions .. | .server .. => isTrue trivial

/-- Whatever is registered is advertised by a version whose `partitions.close` has not run. -/
structure Held (name root : Bytes) (address : Address) (s : AdvertisingDB) : Prop where
  /-- the prefix of the watcher -/
  rooted : s.session.root = root
  /-- the partitions of the versions -/
  known : ∀ v a, s.partitions v = some a → v ∈ s.db.created ∧
    a.zkPath = zkPath name v.name ∧ a.partitions.peers = some address
  /-- what is registered -/
  registered : ∀ node ∈ s.session.ephemeralNodes, ∃ v i, v ∉ s.closed ∧ s.Advertises v i ∧
    path name root address v i = node
  /-- versions are closed after they are canceled -/
  closers : ∀ v ∈ s.closers, v ∈ s.db.cancelled
  closed : ∀ v ∈ s.closed, v ∈ s.db.cancelled
  /-- so they are not being built -/
  building : ∀ v ∈ s.closed, ∀ p, s.building v ≠ some (.load p)

theorem held_new : Held name root address (new root) where
  rooted := rfl
  known := fun _ _ ha => by cases ha
  registered := fun _ hnode => by cases hnode
  closers := fun _ hv => by cases hv
  closed := fun _ hv => by cases hv
  building := fun _ hv => by cases hv

namespace Held

variable (h : Held name root address s)
include h

/-- The db has gone on. -/
theorem setDB {d : DB} (hcreated : ∀ v ∈ s.db.created, v ∈ d.created)
    (hcancelled : s.db.cancelled ⊆ d.cancelled) : Held name root address { s with db := d } where
  rooted := h.rooted
  known := fun v a ha => by
    obtain ⟨hv, hrest⟩ := h.known v a ha
    exact ⟨hcreated v hv, hrest⟩
  registered := h.registered
  closers := fun v hv => hcancelled (h.closers v hv)
  closed := fun v hv => hcancelled (h.closed v hv)
  building := h.building

/-- One version has other partitions. -/
theorem known_update {d : DB} {v : VersionRef} {b : Advertiser}
    (hcreated : ∀ u ∈ s.db.created, u ∈ d.created) (hb : v ∈ d.created ∧
      b.zkPath = zkPath name v.name ∧ b.partitions.peers = some address) (u : VersionRef)
    (c : Advertiser) (hc : Function.update s.partitions v (some b) u = some c) :
    u ∈ d.created ∧ c.zkPath = zkPath name u.name ∧ c.partitions.peers = some address := by
  by_cases hu : u = v
  · subst hu
    rw [Function.update_self] at hc
    obtain rfl := Option.some.inj hc
    exact hb
  · rw [Function.update_of_ne hu] at hc
    obtain ⟨hmem, hrest⟩ := h.known u c hc
    exact ⟨hcreated u hmem, hrest⟩

/-- The partitions of a version have grown, and so has what is registered for it. -/
theorem grow {v : VersionRef} {a b : Advertiser} {w : ZkSession} (ha : s.partitions v = some a)
    (hroot : w.root = s.session.root) (hzk : b.zkPath = a.zkPath)
    (hpeers : b.partitions.peers = a.partitions.peers)
    (hadvertise : a.shouldAdvertise = true → b.shouldAdvertise = true)
    (hlocal : a.partitions.localPartitions ⊆ b.partitions.localPartitions)
    (hnew : ∀ node ∈ w.ephemeralNodes, node ∈ s.session.ephemeralNodes ∨ v ∉ s.closed ∧
      b.shouldAdvertise = true ∧ ∃ i ∈ b.partitions.localPartitions,
        path name root address v i = node) :
    Held name root address { s with
      partitions := Function.update s.partitions v (some b), session := w } where
  rooted := hroot.trans h.rooted
  known := by
    apply h.known_update fun _ hu => hu
    rw [hzk, hpeers]
    exact h.known v a ha
  registered := fun node hnode => by
    obtain hold | ⟨hv, hadv, i, hi, rfl⟩ := hnew node hnode
    · obtain ⟨u, i, hu, ⟨c, hc, hadv, hi⟩, rfl⟩ := h.registered node hold
      by_cases huv : u = v
      · subst huv
        obtain rfl := Option.some.inj (ha.symm.trans hc)
        exact ⟨u, i, hu, ⟨b, Function.update_self .., hadvertise hadv, hlocal hi⟩, rfl⟩
      · exact ⟨u, i, hu, ⟨c, (Function.update_of_ne huv _ _).trans hc, hadv, hi⟩, rfl⟩
    · exact ⟨v, i, hv, ⟨b, Function.update_self .., hadv, hi⟩, rfl⟩
  closers := h.closers
  closed := h.closed
  building := h.building

/-- What the loops over `p.local` are about. -/
theorem mem_nodes {v : VersionRef} {a : Advertiser} (hzk : a.zkPath = zkPath name v.name)
    (hpeers : a.partitions.peers = some address) (order : SetOrder ℤ) (node : Bytes) :
    (∃ n ∈ a.nodes order, GoPath.join [s.session.root, n] = node) ↔
      ∃ i ∈ a.partitions.localPartitions, path name root address v i = node := by
  constructor
  · rintro ⟨n, hn, rfl⟩
    obtain ⟨i, hi, rfl⟩ := (Advertiser.mem_nodes hpeers order).mp hn
    exact ⟨i, hi, by rw [path, partitionPath, hzk, h.rooted]⟩
  · rintro ⟨i, hi, rfl⟩
    refine ⟨_, (Advertiser.mem_nodes hpeers order).mpr ⟨i, hi, rfl⟩, ?_⟩
    rw [path, partitionPath, hzk, h.rooted]

/-- `advertisePartitions` of a version that is not closed, or has nothing to advertise. -/
theorem advertise {v : VersionRef} {a : Advertiser} (ha : s.partitions v = some a)
    (hin : v ∈ s.closed → a.partitions.localPartitions = ∅) (order : SetOrder ℤ) :
    Held name root address { s with
      starting := none
      partitions := Function.update s.partitions v
        (some (a.advertisePartitions s.session order).1)
      session := (a.advertisePartitions s.session order).2 } := by
  obtain ⟨hv, hzk, hpeers⟩ := h.known v a ha
  obtain ⟨hroot, hmem⟩ := ZkSession.foldl_createEphemeral (a.nodes order) s.session
  have hcall : a.advertisePartitions s.session order = ({ a with shouldAdvertise := true },
      (a.nodes order).foldl ZkSession.createEphemeral s.session) := by
    rw [Advertiser.advertisePartitions, hpeers]
    rfl
  rw [hcall]
  have hgrow := h.grow (b := { a with shouldAdvertise := true }) ha hroot rfl rfl (fun _ => rfl)
    subset_rfl fun node hnode => by
      refine ((hmem node).mp hnode).imp id fun hnew => ?_
      obtain ⟨i, hi, hnode⟩ := (h.mem_nodes hzk hpeers order node).mp hnew
      refine ⟨fun hclosed => ?_, rfl, i, hi, hnode⟩
      rw [hin hclosed] at hi
      exact Finset.notMem_empty i hi
  exact ⟨hgrow.rooted, hgrow.known, hgrow.registered, hgrow.closers, hgrow.closed, hgrow.building⟩

/-- A build adds partitions to a version that is not closed. -/
theorem updateLocal {v : VersionRef} {a : Advertiser} (ha : s.partitions v = some a)
    (hin : v ∉ s.closed) (loaded : Finset ℤ) (order : SetOrder ℤ) :
    Held name root address { s with
      partitions := Function.update s.partitions v
        (some (a.updateLocalPartitions s.session loaded order).1)
      session := (a.updateLocalPartitions s.session loaded order).2 } := by
  obtain ⟨hv, hzk, hpeers⟩ := h.known v a ha
  let a' := (a.updateLocalPartitions s.session loaded order).1
  have hzk' : a'.zkPath = zkPath name v.name := hzk
  have hpeers' : a'.partitions.peers = a.partitions.peers :=
    Partitions.updateLocalPartitions_peers ..
  have hlocal : a.partitions.localPartitions ⊆ a'.partitions.localPartitions := by
    have heq : a'.partitions.localPartitions = a.partitions.localPartitions ∪ loaded :=
      Partitions.updateLocalPartitions_localPartitions ..
    rw [heq]
    exact Finset.subset_union_left
  obtain ⟨hroot, hmem⟩ := ZkSession.foldl_createEphemeral (a'.nodes order) s.session
  by_cases hadvertise : a.shouldAdvertise = true
  · have hsession : (a.updateLocalPartitions s.session loaded order).2 =
        (a'.nodes order).foldl ZkSession.createEphemeral s.session := if_pos hadvertise
    rw [hsession]
    refine h.grow ha hroot rfl hpeers' id hlocal fun node hnode => ?_
    refine ((hmem node).mp hnode).imp id fun hnew => ?_
    exact ⟨hin, hadvertise, (h.mem_nodes hzk' (hpeers'.trans hpeers) order node).mp hnew⟩
  · have hsession : (a.updateLocalPartitions s.session loaded order).2 = s.session :=
      if_neg hadvertise
    rw [hsession]
    exact h.grow ha rfl rfl hpeers' id hlocal fun node hnode => .inl hnode

/-- `partitions.close`: what the version has registered is gone. -/
theorem closePartitions {v : VersionRef} {a : Advertiser} (ha : s.partitions v = some a)
    (hv : v ∈ s.closers) (hfree : s.building v = none) (order : SetOrder ℤ) :
    Held name root address { s with
      closers := s.closers.erase v
      partitions := Function.update s.partitions v
        (some (a.unadvertisePartitions s.session order).1)
      session := (a.unadvertisePartitions s.session order).2
      closed := insert v s.closed } := by
  obtain ⟨hcreated, hzk, hpeers⟩ := h.known v a ha
  obtain ⟨hroot, hmem⟩ := ZkSession.foldl_removeEphemeral (a.nodes order) s.session
  have hcall : a.unadvertisePartitions s.session order = ({ a with shouldAdvertise := false },
      (a.nodes order).foldl ZkSession.removeEphemeral s.session) := by
    rw [Advertiser.unadvertisePartitions, hpeers]
    rfl
  rw [hcall]
  refine ⟨hroot.trans h.rooted, ?_, fun node hnode => ?_, fun u hu => ?_, fun u hu => ?_,
    fun u hu p hp => ?_⟩
  · apply h.known_update fun _ hu => hu
    exact ⟨hcreated, hzk, hpeers⟩
  · obtain ⟨hold, hgone⟩ := (hmem node).mp hnode
    obtain ⟨u, i, hu, ⟨b, hb, hadv, hi⟩, hpath⟩ := h.registered node hold
    have huv : u ≠ v := by
      rintro rfl
      obtain rfl := Option.some.inj (ha.symm.trans hb)
      obtain ⟨n, hn, hjoin⟩ := (h.mem_nodes hzk hpeers order node).mpr ⟨i, hi, hpath⟩
      exact hgone n hn hjoin
    have hclosed : u ∉ insert v s.closed := by
      rw [Finset.mem_insert, not_or]
      exact ⟨huv, hu⟩
    exact ⟨u, i, hclosed, ⟨b, (Function.update_of_ne huv _ _).trans hb, hadv, hi⟩, hpath⟩
  · exact h.closers u (List.mem_of_mem_erase hu)
  · obtain rfl | hu := Finset.mem_insert.mp hu
    · exact h.closers u hv
    · exact h.closed u hu
  · obtain rfl | hu := Finset.mem_insert.mp hu
    · rw [show s.building u = none from hfree] at hp
      cases hp
    · exact h.building u hu p hp

/-- A new version advertises nothing. -/
theorem newVersion (hsound : s.db.Sound) {p : Partitions} {d : DB} {v : VersionRef}
    (hpeers : p.peers = some address)
    (hd : s.db.act true (.newVersion (some p.readyClosed)) = some d)
    (hv : d.created.head? = some v) :
    Held name root address { s with
      db := d
      partitions := Function.update s.partitions v
        (some ⟨p, zkPath name v.name, false⟩) } := by
  obtain ⟨label, caller, rfl⟩ := DB.onNewVersion_some hd
  obtain rfl : (⟨s.db.created.length, label⟩ : VersionRef) = v := Option.some.inj hv
  have hnew : (⟨s.db.created.length, label⟩ : VersionRef) ∉ s.db.created := by
    intro hmem
    exact absurd (hsound.created _ hmem) (lt_irrefl _)
  refine ⟨h.rooted, ?_, fun node hnode => ?_, h.closers, h.closed, h.building⟩
  · apply h.known_update fun _ hu => List.mem_cons_of_mem _ hu
    refine ⟨List.mem_cons_self .., ?_, hpeers⟩
    -- without taking the path apart, as `rfl` would
    dsimp only
  · obtain ⟨u, i, hu, ⟨b, hb, hadv, hi⟩, hpath⟩ := h.registered node hnode
    have huv : u ≠ ⟨s.db.created.length, label⟩ := by
      rintro rfl
      exact hnew (h.known _ b hb).1
    exact ⟨u, i, hu, ⟨b, (Function.update_of_ne huv _ _).trans hb, hadv, hi⟩, hpath⟩

end Held

/-- What an event of the db cancels, and for whom it starts a goroutine that closes the
partitions. -/
theorem cancels {d d' : DB} {ev : DBEvent} (hhand : DB.Handover ev d d') :
    d.cancelled ⊆ d'.cancelled ∧
      ∀ v ∈ (d'.closes.take (d'.closes.length - d.closes.length)).map Close.version,
        v ∈ d'.cancelled := by
  have hclose : ∀ w byDB, d.cancelled ⊆ (d.closeVersion w byDB).cancelled ∧
      ∀ v ∈ ((d.closeVersion w byDB).closes.take
        ((d.closeVersion w byDB).closes.length - d.closes.length)).map Close.version,
        v ∈ (d.closeVersion w byDB).cancelled := by
    intro w byDB
    rw [DB.closeVersion]
    split
    · simp
    · simp [Finset.subset_insert]
  obtain ⟨hcancelled, hcloses, -, -⟩ | ⟨order, -, -, rfl⟩ | ⟨w, ws, -, -, rfl⟩ | ⟨w, -, rfl⟩ :=
    hhand.shuts
  · rw [hcancelled, hcloses]
    simp
  · simp
  · exact hclose w true
  · exact hclose w false

/-- **One event.** A goroutine for `partitions.close` is there for every version that was canceled.
-/
theorem Held.moves (h : Held name root address s) (hsound : s.db.Sound) (hpanic : s.db.panic = none)
    (hin : s.AdvertisesInTime e) (hs : Moves name address s e s') : Held name root address s' := by
  have hready : ∀ {v d}, d = s.db ∨ s.db.act true (.partitionsReady v) = some d →
      (∀ u ∈ s.db.created, u ∈ d.created) ∧ s.db.cancelled ⊆ d.cancelled := by
    rintro v d (rfl | hd)
    · exact ⟨fun _ hu => hu, subset_rfl⟩
    · have hhand := DB.handover_act hpanic hsound.known hd
      exact ⟨fun _ hu => hhand.created.subset hu, (cancels hhand).1⟩
  cases hs with
  | db hd =>
    have hhand := DB.handover_act hpanic hsound.known hd
    obtain ⟨hcancelled, hclosers⟩ := cancels hhand
    have hset := h.setDB (fun _ hu => hhand.created.subset hu) hcancelled
    refine ⟨hset.rooted, hset.known, hset.registered, fun v hv => ?_, hset.closed, hset.building⟩
    obtain hv | hv := List.mem_append.mp hv
    · exact hclosers v hv
    · exact hset.closers v hv
  | newVersion hpeers hd hv => exact h.newVersion hsound hpeers hd hv
  | @remote v nodes a p d ha hp hd =>
    obtain ⟨hcreated, hcancelled⟩ := hready hd
    obtain ⟨hpeers, hlocal⟩ := Partitions.updateRemotePartitions_frame hp
    have hgrow := h.grow (b := { a with partitions := p }) (w := s.session) ha rfl rfl hpeers id
      hlocal.ge fun _ hnode => .inl hnode
    exact hgrow.setDB hcreated hcancelled
  | work hload =>
    refine ⟨h.rooted, h.known, h.registered, h.closers, h.closed, fun v hv p hp => ?_⟩
    obtain hold | hnot := hload v p hp
    · exact h.building v hv p hold
    · exact hnot (h.closed v hv)
  | advertise hstart ha =>
    exact h.advertise ha (fun hclosed => hin _ hclosed hstart _ ha) _
  | @buildDone v order loaded a d hload ha hd =>
    obtain ⟨hcreated, hcancelled⟩ := hready hd
    have hlocal := h.updateLocal ha (fun hclosed => h.building v hclosed loaded hload) loaded order
    have hset := hlocal.setDB hcreated hcancelled
    refine ⟨hset.rooted, hset.known, hset.registered, hset.closers, hset.closed,
      fun u hu p hp => ?_⟩
    obtain hold | hnot := load_of_update (s := s) (by simp) u p hp
    · exact h.building u hu p hold
    · exact hnot (h.closed u hu)
  | closePartitions hv hfree ha => exact h.closePartitions ha hv hfree _
  | server =>
    exact ⟨h.rooted, h.known, h.registered, h.closers, h.closed, h.building⟩

theorem held_of_reachable
    (h : ((advertisingMachine name root address).restrict AdvertisesInTime).Reachable s) :
    Held name root address s := by
  refine Machine.Reachable.invariant (P := Held name root address) (fun s hs => ?_)
    (fun s e s' hreach hheld hs => ?_) h
  · rw [show s = .new root from hs]
    exact held_new
  · obtain ⟨hin, hs⟩ := hs
    change step name address s e = some s' at hs
    rw [step] at hs
    split at hs
    · rename_i hpanic
      have hsound := DB.sound_of_reachable (reachable_db hreach.of_restrict)
      exact hheld.moves hsound hpanic hin (moves_of_act hs)
    · cases hs

end AdvertisingDB

/-- **A removed version stays unadvertised.** In every run in which no version is advertised after
its `partitions.close`, unless it has no partitions then: once `partitions.close` has run for
a version, and for every other version object that has a znode in common with it, none of its
znodes is registered with the watcher. -/
theorem removed_unadvertised {name root : Bytes} {address : Address} {s : AdvertisingDB}
    (h : ((advertisingMachine name root address).restrict
      AdvertisingDB.AdvertisesInTime).Reachable s) {v : VersionRef}
    (hclosed : ∀ u ∈ s.db.created, (∃ i j, AdvertisingDB.path name root address u i =
      AdvertisingDB.path name root address v j) → u ∈ s.closed) (partition : ℤ) :
    AdvertisingDB.path name root address v partition ∉ s.session.ephemeralNodes := by
  intro hmem
  have hheld := AdvertisingDB.held_of_reachable h
  obtain ⟨u, i, hu, ⟨a, ha, -, -⟩, hpath⟩ := hheld.registered _ hmem
  exact hu (hclosed u (hheld.known u a ha).1 ⟨i, partition, hpath⟩)

/-- `backfillVersions` prepares and advertises version `2`, which misses a partition, and prepares
version `1`, which a manifest has in part. -/
def backfillsBoth : List AdvertisingEvent :=
  [.db (.listVersions (some [[49], [50]])), .newVersion 1 ∅ [] none, .db .refresherNext,
    .startBuild, .advertise (.ascending ℤ), .db .refresherNext,
    .newVersion 2 {0} [] (some {0}), .db .refresherNext]

/-- A peer has the partition, so version `2` becomes current and version `1` is removed. -/
def upgradesAndRemoves : List AdvertisingEvent :=
  [.remote ⟨0, [50]⟩ [[48, 64, 98]], .db (.ready ⟨0, [50]⟩), .db (.wake ⟨0, [50]⟩),
    .db (.upgrade ⟨⟨0, [50]⟩, false⟩), .db (.upgraderNext (.stored _)),
    .db (.upgraderNext (.stored _)), .db (.upgraderNext (.stored _)),
    .db (.remove (⟨1, [49]⟩, false)), .db .cleanerNext, .db .cleanerNext, .db .cleanerNext,
    .db .cleanerNext, .closePartitions ⟨1, [49]⟩ (.ascending ℤ)]

/-- `switchVersion` goes on with version `1`. -/
def advertisesOld : List AdvertisingEvent :=
  [.startBuild, .advertise (.ascending ℤ), .db .refresherNext]

/-- `db.close` closes version `2`. -/
def closesCurrent : List AdvertisingEvent :=
  [.db .refresherNext, .db (.close (.stored _)), .db .refresherNext,
    .closePartitions ⟨0, [50]⟩ (.ascending ℤ)]

/-- Version `1` is advertised before it is removed, and then not anymore. -/
theorem removed_unadvertised_inTime :
    ∃ s, ((advertisingMachine [100] [47, 115] [97]).restrict
        AdvertisingDB.AdvertisesInTime).Reachable s ∧ ⟨1, [49]⟩ ∈ s.closed ∧
      AdvertisingDB.path [100] [47, 115] [97] ⟨1, [49]⟩ 0 ∉ s.session.ephemeralNodes := by
  have hreach : ((advertisingMachine [100] [47, 115] [97]).restrict
      AdvertisingDB.AdvertisesInTime).Reachable _ :=
    .runGuarded (.start rfl) (backfillsBoth ++ advertisesOld ++ upgradesAndRemoves ++ closesCurrent)
      rfl
  refine ⟨_, hreach, by decide, removed_unadvertised hreach ?_ 0⟩
  intro u hu hshared
  clear hshared
  revert u
  decide

/-- The builds find nothing to do, and version `1` is turned away and not found. -/
def finishes : List AdvertisingEvent :=
  [.build ⟨0, [50]⟩, .plan ⟨0, [50]⟩, .build ⟨1, [49]⟩, .plan ⟨1, [49]⟩, .db (.ready ⟨1, [49]⟩),
    .db (.wake ⟨1, [49]⟩), .db (.upgrade ⟨⟨1, [49]⟩, false⟩), .db (.upgraderNext (.stored _)),
    .db (.remove (⟨1, [49]⟩, false)), .db .cleanerNext, .db .refresherNext]

/-- **A version that is removed before it is advertised.** `partitions.close` has run for version
`1`, nobody has anything left to do with it, and its znode is registered. -/
theorem removed_before_advertised :
    ∃ s, (advertisingMachine [100] [47, 115] [97]).Reachable s ∧ ⟨1, [49]⟩ ∈ s.closed ∧
      s.starting = none ∧ s.builds = [] ∧ s.closers = [] ∧ s.building ⟨1, [49]⟩ = none ∧
      s.db.refresher = none ∧ s.db.waiters = [] ∧ s.db.upgrades = [] ∧ s.db.removals = [] ∧
      s.db.cleaner = none ∧
      AdvertisingDB.path [100] [47, 115] [97] ⟨1, [49]⟩ 0 ∈ s.session.ephemeralNodes :=
  ⟨_, .run (.start rfl) (backfillsBoth ++ upgradesAndRemoves ++ advertisesOld ++ finishes) rfl,
    by decide, rfl, rfl, rfl, rfl, rfl, rfl, rfl, rfl, rfl, by decide⟩

end Sequins
