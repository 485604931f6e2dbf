import Sequins.CloseOnce

/-!
# Clearing defunct versions

`cleanupStore` looks for each directory of the local store whether the multiplexer has a version of
that name, and removes the directory if not. Both are under `cleanupLock`, so nobody can remove a
version in between; but `prepare` is under `refreshLock`, so somebody can put one there. A directory
that an earlier process left is then adopted by a new version, and removed while the version is in
use (`adopted_then_cleared`). As long as no version is prepared between the look at its directory
and the removal, only what is defunct is removed (`cleared_defunct`).

The directories are beside `dbMachine`: `cleanupStore` lists them and removes some, builds make
them, and `removeVersion` and `db.delete` remove those of versions.
-/

namespace Sequins

/-! ## The machine -/

/-- A db with its directory in the local store. -/
structure StoredDB where
  /-- the db -/
  db : DB
  /-- the directories of versions -/
  dirs : Finset Bytes
  /-- history: what `cleanupStore` has removed, each with the version that the multiplexer had under
  that name -/
  cleared : List (Bytes × Option VersionRef)

/-- What can happen. -/
inductive StoredEvent where
  /-- something else than a `cleanupStore` that starts -/
  | db (e : DBEvent)
  /-- `cleanupStore` takes its lock; `ReadDir` succeeds or fails -/
  | cleanup (ok : Bool)
  /-- `build` makes the directory of a version -/
  | mkdir (v : VersionRef)
  /-- `db.delete` -/
  | delete

namespace StoredDB

def new (dirs : Finset Bytes) : StoredDB := ⟨.new, dirs, []⟩

/-- `ReadDir`, which sorts. If it fails, `cleanupStore` has nothing to do. -/
def readDir (s : StoredDB) (ok : Bool) : List Bytes :=
  if ok then (SetOrder.ascending Bytes).visit s.dirs else []

/-- What the holder of `cleanupLock` removes when it goes on. -/
def removesDir (s : StoredDB) : StoredDB :=
  match s.db.cleaner with
  | some (.close v) => { s with dirs := s.dirs.erase v.name }
  | some (.clear dir _) =>
    { s with
      dirs := s.dirs.erase dir
      cleared := (dir, (s.db.mux.versions.lookup dir).map Entry.version) :: s.cleared }
  | _ => s

/-- One event. -/
def act (peers : Bool) (s : StoredDB) : StoredEvent → Option StoredDB
  | .db (.cleanup _) => none
  | .db .cleanerNext => (s.db.act peers .cleanerNext).map fun d => { s.removesDir with db := d }
  | .db e => (s.db.act peers e).map fun d => { s with db := d }
  | .cleanup ok => (s.db.act peers (.cleanup (s.readDir ok))).map fun d => { s with db := d }
  | .mkdir v =>
    if ∃ p ∈ s.db.mux.prepared, p.1 = v then
      some { s with dirs := insert v.name s.dirs }
    else
      none
  | .delete => some { s with dirs := s.dirs.filter fun dir => s.db.mux.versions.lookup dir = none }

/-- A panic ends everything. -/
def step (peers : Bool) (s : StoredDB) (e : StoredEvent) : Option StoredDB :=
  if s.db.panic = none then s.act peers e else none

end StoredDB

/-- Every interleaving on one db, with some directories left by an earlier process. -/
def storedMachine (peers : Bool) (dirs : Finset Bytes) : Machine StoredDB StoredEvent :=
  .ofStep (.new dirs) (StoredDB.step peers)

/-! ## Looking at a directory

Between the look at the multiplexer and `RemoveAll`, `cleanupStore` remembers one name. The only
event that could put a version under that name in the meantime is `prepare`, which is what the
condition is about. -/

namespace DB

variable {d d' : DB} {e : DBEvent} {peers : Bool}

/-- The directory that `cleanupStore` has found to be defunct and not removed yet. -/
def checked (d : DB) : List Bytes :=
  match d.cleaner with
  | some (.gotVersion dir none _) => [dir]
  | some (.clear dir _) => [dir]
  | _ => []

/-- No version is prepared whose directory `cleanupStore` has found to be defunct. -/
def KeepsChecked (d : DB) : DBEvent → Prop
  | .refresherNext => ∀ v ∈ d.toPrepare, ∀ dir ∈ d.checked, v.name ≠ dir
  | _ => True

instance (d : DB) : DecidablePred d.KeepsChecked
  | .refresherNext => inferInstanceAs (Decidable (∀ v ∈ d.toPrepare, ∀ dir ∈ d.checked, _))
  | .getCurrent | .getVersion _ | .release _ | .partitionsReady _ | .ready _ | .wake _ | .refresh
  | .close _ | .listVersions _ | .newVersion _ | .upgrade _ | .upgraderNext _ | .remove _
  | .cleanup _ | .cleanerNext => .isTrue trivial

/-- It is known to the holder of `cleanupLock` only. -/
theorem checked_eq_of_cleaner (h : d'.cleaner = d.cleaner) : d'.checked = d.checked := by
  rw [checked, h, checked]

theorem checked_attempt (r : Except Panic Mux) {go : Mux → DB}
    (hgo : ∀ m, (go m).cleaner = d.cleaner) : (d.attempt r go).checked = d.checked := by
  cases r with
  | error p => rfl
  | ok m => exact checked_eq_of_cleaner (hgo m)

/-- What `cleanupStore` finds to be defunct is not in the multiplexer then. -/
theorem Cleans.checked (h : d.Cleans d') {dir : Bytes} (hdir : dir ∈ d'.checked) :
    dir ∈ d.checked ∨ d.mux.versions.lookup dir = none := by
  cases h with
  | next | returnsNil | returnsVersion | close | cleaned | clear => cases hdir
  | @loop dir' dirs hc =>
    right
    cases hlookup : d.mux.versions.lookup dir' with
    | none =>
      simp only [DB.checked, Mux.getVersion, hlookup, Mux.acquire, List.mem_singleton] at hdir
      rwa [hdir]
    | some vs =>
      simp only [DB.checked, Mux.getVersion, hlookup, Mux.acquire] at hdir
      cases hdir
  | @gotVersion dir' v dirs hc =>
    left
    cases hm : d.mux.release v with
    | error p =>
      rw [hm] at hdir
      exact hdir
    | ok m =>
      rw [hm] at hdir
      cases v with
      | none =>
        rw [DB.checked, hc]
        exact hdir
      | some v => cases hdir

/-- Nobody else has a part in it. -/
theorem Acts.checked (h : d.Acts peers e d') {dir : Bytes} (hdir : dir ∈ d'.checked) :
    dir ∈ d.checked ∨ e = .cleanerNext ∧ d.mux.versions.lookup dir = none := by
  have hkeep : d'.checked = d.checked →
      dir ∈ d.checked ∨ e = .cleanerNext ∧ d.mux.versions.lookup dir = none :=
    fun heq => .inl (heq ▸ hdir)
  cases h with
  | getCurrent | getVersion | partitionsReady | ready | wake | refresh | close | upgrade =>
    exact hkeep rfl
  | release => exact hkeep (checked_attempt _ fun _ => rfl)
  | listVersions hs =>
    obtain ⟨r, r', -, -, rfl⟩ := listed_of_onListVersions hs
    exact hkeep rfl
  | newVersion hs =>
    cases creates_of_onNewVersion hs with
    | _ => exact hkeep rfl
  | refresherNext hs =>
    cases refreshes_of_refresherNext hs with
    | gotCurrent | gotExisting | switch => exact hkeep (checked_attempt _ fun _ => rfl)
    | close =>
      apply hkeep
      rw [closeVersion_eq]
      rfl
    | _ => exact hkeep rfl
  | upgraderNext hs =>
    cases upgrades_of_upgraderNext hs with
    | sweep => exact hkeep rfl
    | _ => exact hkeep (checked_attempt _ fun _ => rfl)
  | remove | cleanup => cases hdir
  | cleanerNext hs =>
    exact ((cleans_of_cleanerNext hs).checked hdir).imp id fun hnone => ⟨rfl, hnone⟩

/-- What `cleanupStore` is going to remove is not in the multiplexer. -/
def Defunct (d : DB) : Prop := ∀ dir ∈ d.checked, d.mux.versions.lookup dir = none

/-- One event: nobody prepares what is going to be removed. -/
theorem Defunct.act (h : d.Defunct) (hsound : d.Sound) (hsound' : d'.Sound) (hin : d.KeepsChecked e)
    (hs : d.act peers e = some d') : d'.Defunct := by
  intro dir hdir
  have hchecked := (acts_of_act hs).checked hdir
  have hnone : d.mux.versions.lookup dir = none := by
    obtain hold | ⟨-, hnone⟩ := hchecked
    · exact h dir hold
    · exact hnone
  cases hvs : d'.mux.versions.lookup dir with
  | none => rfl
  | some vs =>
    obtain ⟨old, hold, -⟩ | ⟨rfl, hname, hprepare, -⟩ := lookup_act hsound hsound' hs hvs
    · rw [hnone] at hold
      cases hold
    · obtain hold | ⟨hne, -⟩ := hchecked
      · exact absurd hname.symm (hin _ hprepare dir hold)
      · cases hne

end DB

namespace StoredDB

variable {s s' : StoredDB} {e : StoredEvent} {peers : Bool} {dirs : Finset Bytes}

/-- No version is prepared whose directory `cleanupStore` has found to be defunct. -/
def KeepsChecked (s : StoredDB) : StoredEvent → Prop
  | .db e => s.db.KeepsChecked e
  | _ => True

instance (s : StoredDB) : DecidablePred s.KeepsChecked
  | .db e => inferInstanceAs (Decidable (s.db.KeepsChecked e))
  | .cleanup _ | .mkdir _ | .delete => .isTrue trivial

/-- The events, as far as they concern the history. -/
theorem act_cases (hs : s.act peers e = some s') :
    s'.db = s.db ∧ s'.cleared = s.cleared ∨
      ∃ ev, s.db.act peers ev = some s'.db ∧ (s.KeepsChecked e → s.db.KeepsChecked ev) ∧
        (s'.cleared = s.cleared ∨ ∃ dir ∈ s.db.checked, s'.cleared =
          (dir, (s.db.mux.versions.lookup dir).map Entry.version) :: s.cleared) := by
  rw [act.eq_def] at hs
  split at hs
  · cases hs
  · obtain ⟨d, hd, rfl⟩ := Option.map_eq_some_iff.mp hs
    refine .inr ⟨_, hd, id, ?_⟩
    rw [removesDir]
    split
    · exact .inl rfl
    · rename_i dir rest hc
      refine .inr ⟨dir, ?_, rfl⟩
      rw [DB.checked, hc]
      exact List.mem_singleton_self _
    · exact .inl rfl
  · obtain ⟨d, hd, rfl⟩ := Option.map_eq_some_iff.mp hs
    exact .inr ⟨_, hd, id, .inl rfl⟩
  · obtain ⟨d, hd, rfl⟩ := Option.map_eq_some_iff.mp hs
    exact .inr ⟨_, hd, fun _ => trivial, .inl rfl⟩
  · obtain ⟨-, hs⟩ := Option.ite_none_right_eq_some.mp hs
    obtain rfl := Option.some.inj hs
    exact .inl ⟨rfl, rfl⟩
  · obtain rfl := Option.some.inj hs
    exact .inl ⟨rfl, rfl⟩

theorem act_of_step (hs : (storedMachine peers dirs).step s e s') :
    s.db.panic = none ∧ s.act peers e = some s' :=
  Option.ite_none_right_eq_some.mp hs

/-- The db is one that `dbMachine` reaches. -/
theorem reachable_db (h : (storedMachine peers dirs).Reachable s) :
    (dbMachine peers).Reachable s.db := by
  induction h with
  | start hs =>
    rw [show _ = new dirs from hs]
    exact .start rfl
  | step _ hs ih =>
    obtain ⟨hpanic, hs⟩ := act_of_step hs
    obtain ⟨heq, -⟩ | ⟨ev, hev, -, -⟩ := act_cases hs
    · rwa [heq]
    · exact ih.step (e := ev) ((if_pos hpanic).trans hev)

theorem defunct_of_reachable
    (h : ((storedMachine peers dirs).restrict KeepsChecked).Reachable s) :
    s.db.Defunct ∧ ∀ c ∈ s.cleared, c.2 = none := by
  refine Machine.Reachable.invariant (P := fun s => s.db.Defunct ∧ ∀ c ∈ s.cleared, c.2 = none)
    (fun s hs => ?_) (fun s e s' hreach hinv hstep => ?_) h
  · rw [show s = new dirs from hs]
    exact ⟨fun _ hdir => (by cases hdir), fun _ hc => (by cases hc)⟩
  · obtain ⟨hin, hs⟩ := hstep
    have hsound := DB.sound_of_reachable (reachable_db hreach.of_restrict)
    have hsound' := DB.sound_of_reachable (reachable_db (hreach.of_restrict.step hs))
    obtain ⟨hdefunct, hcleared⟩ := hinv
    obtain ⟨heq, hsame⟩ | ⟨ev, hev, hkeeps, hhistory⟩ := act_cases (act_of_step hs).2
    · rw [heq, hsame]
      exact ⟨hdefunct, hcleared⟩
    · refine ⟨hdefunct.act hsound hsound' (hkeeps hin) hev, ?_⟩
      obtain hsame | ⟨dir, hdir, hmore⟩ := hhistory
      · rwa [hsame]
      · rw [hmore, List.forall_mem_cons, hdefunct dir hdir]
        exact ⟨rfl, hcleared⟩

end StoredDB

/-- **Only defunct directories are cleared**, whatever was on disk, in runs in which no version is
prepared between the look at its directory and the removal: whenever `cleanupStore` removes a
directory, the multiplexer has no version of that name. -/
theorem cleared_defunct {peers : Bool} {dirs : Finset Bytes} {s : StoredDB}
    (h : ((storedMachine peers dirs).restrict StoredDB.KeepsChecked).Reachable s) :
    ∀ c ∈ s.cleared, c.2 = none :=
  (StoredDB.defunct_of_reachable h).2

/-- `backfillVersions` prepares version `1`, which is not ready; `cleanupStore` finds the directory
of version `2` to be defunct. -/
def looksAtTwo : List StoredEvent :=
  [.db (.listVersions (some [[49]])), .db (.newVersion (some false)), .db .refresherNext,
    .mkdir ⟨0, [49]⟩, .db .refresherNext, .db .refresherNext, .cleanup true, .db .cleanerNext,
    .db .cleanerNext, .db .cleanerNext, .db .cleanerNext]

/-- `refresh` finds version `2`, which reads its manifest from the directory, and prepares it. -/
def preparesTwo : List StoredEvent :=
  [.db .refresh, .db .refresherNext, .db (.listVersions (some [[49], [50]])), .db .refresherNext,
    .db .refresherNext, .db (.newVersion (some true)), .db .refresherNext]

/-- The directory is removed before version `2` appears. -/
theorem cleared_defunct_before :
    ∃ s, ((storedMachine true {[50]}).restrict StoredDB.KeepsChecked).Reachable s ∧
      s.cleared.map Prod.fst = [[50]] ∧ ∀ c ∈ s.cleared, c.2 = none :=
  have hreach : ((storedMachine true {[50]}).restrict StoredDB.KeepsChecked).Reachable _ :=
    .runGuarded (.start rfl) (looksAtTwo ++ [.db .cleanerNext] ++ preparesTwo) rfl
  ⟨_, hreach, rfl, cleared_defunct hreach⟩

/-- **A version loses its directory.** It is removed right after version `2` has adopted it, and
version `2` is in the multiplexer. -/
theorem adopted_then_cleared :
    ∃ s, (storedMachine true {[50]}).Reachable s ∧ s.cleared = [([50], some ⟨1, [50]⟩)] ∧
      s.db.mux.Has ⟨1, [50]⟩ ∧ [50] ∉ s.dirs :=
  ⟨_, .run (.start rfl) (looksAtTwo ++ preparesTwo ++ [.db .cleanerNext]) rfl, rfl, ⟨_, rfl, rfl⟩,
    by decide⟩

end Sequins
